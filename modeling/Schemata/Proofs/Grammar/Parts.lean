/-
The fields and enums of a text, and where they stand.

A part of a derivation tree is a tree of its own with the tokens before it.  The fields and
enums of a text are such parts, and their values are the fields and enums of the declaration
tree, one for one and in the same order.
-/
import Schemata.Proofs.Grammar.Statements
import Schemata.Proofs.Lowering.Parts

namespace Schemata.Grammar

open Production

variable {α β : Type} {A : Production α} {B : Production β}

/-- A tree and the tokens that stand before it. -/
structure Part (A : Production α) where
  before : List Located
  tree : A.Tree

namespace Part

/-- The part with more tokens before it. -/
def behind (ts : List Located) (x : Part A) : Part A := ⟨ts ++ x.before, x.tree⟩

theorem behind_behind (ts us : List Located) (x : Part A) :
    (x.behind us).behind ts = x.behind (ts ++ us) := by
  simp [behind]

/-- The part stands in the tokens. -/
def In (x : Part A) (ts : List Located) : Prop :=
  ∃ after, ts = x.before ++ (A.tokens x.tree ++ after)

variable {x : Part A} {ts us : List Located}

theorem In.behind (h : x.In ts) (us : List Located) : (x.behind us).In (us ++ ts) := by
  obtain ⟨after, rfl⟩ := h
  exact ⟨after, (List.append_assoc ..).symm⟩

theorem In.append (h : x.In ts) (us : List Located) : x.In (ts ++ us) := by
  obtain ⟨after, rfl⟩ := h
  exact ⟨after ++ us, by simp⟩

theorem In.subset (h : x.In ts) : A.tokens x.tree ⊆ ts := by
  obtain ⟨after, rfl⟩ := h
  exact fun t ht => List.mem_append_right _ (List.mem_append_left _ ht)

/-- A part of a part. -/
theorem In.trans {y : Part B} (h : x.In ts) (hy : y.In (A.tokens x.tree)) :
    (y.behind x.before).In ts := by
  obtain ⟨after, rfl⟩ := h
  exact (hy.append after).behind x.before

end Part

/-! ### Parts of lists and bodies -/

/-- Trees in a row, each with those before it. -/
def partsOf (A : Production α) : List A.Tree → List (Part A)
  | [] => []
  | d :: ds => ⟨[], d⟩ :: (partsOf A ds).map (.behind (A.tokens d))

theorem map_tree_partsOf (ds : List A.Tree) : (partsOf A ds).map Part.tree = ds := by
  induction ds with
  | nil => rfl
  | cons d ds ih =>
      rw [partsOf, List.map_cons, List.map_map]
      exact congrArg (d :: ·) ih

theorem in_of_mem_partsOf {ds : List A.Tree} {x : Part A} (h : x ∈ partsOf A ds) :
    x.In (A.many.tokens ds) := by
  induction ds generalizing x with
  | nil => cases h
  | cons d ds ih =>
      rcases List.mem_cons.mp h with rfl | h
      · exact ⟨A.many.tokens ds, rfl⟩
      · obtain ⟨y, hy, rfl⟩ := List.mem_map.mp h
        exact (ih hy).behind (A.tokens d)

/-- The members of a body that are no messages, those of the messages in it included. -/
def Body.parts : Body → List (Part plainMember)
  | .close _ => []
  | .plain member rest => ⟨[], member⟩ :: rest.parts.map (.behind (plainMember.tokens member))
  | .message head inner rest =>
    inner.parts.map (.behind (messageHead.tokens head)) ++
      rest.parts.map (.behind (messageHead.tokens head ++ inner.tokens))

theorem Body.in_of_mem_parts {b : Body} {x : Part plainMember} (h : x ∈ b.parts) :
    x.In b.tokens := by
  induction b generalizing x with
  | close brace => cases h
  | plain member rest ih =>
      rcases List.mem_cons.mp h with rfl | h
      · exact ⟨rest.tokens, rfl⟩
      · obtain ⟨y, hy, rfl⟩ := List.mem_map.mp h
        exact (ih hy).behind _
  | message head inner rest ihInner ihRest =>
      rcases List.mem_append.mp h with h | h
      · obtain ⟨y, hy, rfl⟩ := List.mem_map.mp h
        exact ((ihInner hy).append rest.tokens).behind _
      · obtain ⟨y, hy, rfl⟩ := List.mem_map.mp h
        rw [Body.tokens, ← List.append_assoc]
        exact (ihRest hy).behind _

/-! ### Members of a text -/

/-- The members a statement declares, where an enum is a member by itself. -/
def membersOf : statement.Tree → List (Part plainMember)
  | ⟨.message, head, body⟩ => body.parts.map (.behind (messageHead.tokens head))
  | ⟨.enum, e⟩ => [⟨[], ⟨.enum, e⟩⟩]
  | _ => []

theorem in_of_mem_membersOf {s : statement.Tree} {x : Part plainMember} (h : x ∈ membersOf s) :
    x.In (statement.tokens s) := by
  obtain ⟨kind, e⟩ := s
  cases kind with
  | message =>
      obtain ⟨y, hy, rfl⟩ := List.mem_map.mp h
      exact (Body.in_of_mem_parts hy).behind _
  | enum =>
      obtain rfl := List.mem_singleton.mp h
      exact ⟨[], (List.append_nil _).symm⟩
  | _ => cases h

/-- The tokens before the statements. -/
def headLine (d : file.Tree) : List Located :=
  ((keyword .edition).seq <| (punct .equals).seq <| string.seq <| punct .semicolon).tokens
    (d.1.1, d.1.2.1, d.1.2.2.1, d.1.2.2.2.1)

theorem file_tokens (d : file.Tree) :
    file.tokens d =
      headLine d ++ (statement.many.tokens (statementsOf d) ++ (exactly .eof).tokens d.2) :=
  rfl

/-- The members of a text that are no messages, at any depth. -/
def memberParts (d : file.Tree) : List (Part plainMember) :=
  (partsOf statement (statementsOf d)).flatMap fun s =>
    (membersOf s.tree).map (.behind (headLine d ++ s.before))

theorem in_of_mem_memberParts {d : file.Tree} {x : Part plainMember} (h : x ∈ memberParts d) :
    x.In (file.tokens d) := by
  obtain ⟨s, hs, hx⟩ := List.mem_flatMap.mp h
  obtain ⟨y, hy, rfl⟩ := List.mem_map.mp hx
  have hstatement := ((in_of_mem_partsOf hs).append ((exactly .eof).tokens d.2)).behind (headLine d)
  rw [← file_tokens] at hstatement
  exact hstatement.trans (in_of_mem_membersOf hy)

/-! ### Fields, enums and their values -/

/-- The field a member is, if it is one. -/
def field? : plainMember.Tree → Option field.Tree
  | ⟨.field, e⟩ => some e
  | _ => none

/-- The enum a member is, if it is one. -/
def enum? : plainMember.Tree → Option enum.Tree
  | ⟨.enum, e⟩ => some e
  | _ => none

/-- The enum value an item of an enum is, if it is one. -/
def enumValue? : enumItem.Tree → Option enumValue.Tree
  | ⟨.value, v⟩ => some v
  | _ => none

/-- The parts that are trees of another production. -/
def narrow (f : A.Tree → Option B.Tree) (xs : List (Part A)) : List (Part B) :=
  xs.filterMap fun x => (f x.tree).map (.mk x.before)

theorem map_tree_narrow (f : A.Tree → Option B.Tree) (xs : List (Part A)) :
    (narrow f xs).map Part.tree = (xs.map Part.tree).filterMap f := by
  rw [narrow, List.map_filterMap, List.filterMap_map]
  congr 1
  funext x
  simp [Function.comp_def]

theorem mem_narrow {f : A.Tree → Option B.Tree} {xs : List (Part A)} {y : Part B}
    (h : y ∈ narrow f xs) : ∃ x ∈ xs, f x.tree = some y.tree ∧ y.before = x.before := by
  obtain ⟨x, hx, hmap⟩ := List.mem_filterMap.mp h
  obtain ⟨d, hd, rfl⟩ := Option.map_eq_some_iff.mp hmap
  exact ⟨x, hx, hd, rfl⟩

/-- The fields of a text, at any depth. -/
def fieldsOf (d : file.Tree) : List (Part field) := narrow field? (memberParts d)

/-- The enums of a text, at any depth. -/
def enumsOf (d : file.Tree) : List (Part enum) := narrow enum? (memberParts d)

/-- The tokens of an enum before its items. -/
def enumHead (e : enum.Tree) : List Located :=
  ((keyword .enum).seq <| identifier.seq <| punct .openBrace).tokens (e.1, e.2.1, e.2.2.1)

/-- The values of an enum. -/
def valuesOf (e : Part enum) : List (Part enumValue) :=
  (narrow enumValue? (partsOf enumItem e.tree.2.2.2.1)).map (.behind (e.before ++ enumHead e.tree))

theorem eq_of_field? {m : plainMember.Tree} {e : field.Tree} (h : field? m = some e) :
    m = ⟨.field, e⟩ := by
  obtain ⟨kind, e'⟩ := m
  cases kind with
  | field => exact Option.some.inj h ▸ rfl
  | _ => cases h

theorem eq_of_enum? {m : plainMember.Tree} {e : enum.Tree} (h : enum? m = some e) :
    m = ⟨.enum, e⟩ := by
  obtain ⟨kind, e'⟩ := m
  cases kind with
  | enum => exact Option.some.inj h ▸ rfl
  | _ => cases h

theorem eq_of_enumValue? {i : enumItem.Tree} {v : enumValue.Tree} (h : enumValue? i = some v) :
    i = ⟨.value, v⟩ := by
  obtain ⟨kind, v'⟩ := i
  cases kind with
  | value => exact Option.some.inj h ▸ rfl
  | _ => cases h

theorem in_of_mem_fieldsOf {d : file.Tree} {f : Part field} (h : f ∈ fieldsOf d) :
    f.In (file.tokens d) := by
  obtain ⟨x, hx, hf, hbefore⟩ := mem_narrow h
  obtain ⟨after, htokens⟩ := in_of_mem_memberParts hx
  rw [eq_of_field? hf] at htokens
  exact ⟨after, hbefore ▸ htokens⟩

theorem in_of_mem_enumsOf {d : file.Tree} {e : Part enum} (h : e ∈ enumsOf d) :
    e.In (file.tokens d) := by
  obtain ⟨x, hx, he, hbefore⟩ := mem_narrow h
  obtain ⟨after, htokens⟩ := in_of_mem_memberParts hx
  rw [eq_of_enum? he] at htokens
  exact ⟨after, hbefore ▸ htokens⟩

theorem enum_tokens (e : enum.Tree) :
    enum.tokens e =
      enumHead e ++ (enumItem.many.tokens e.2.2.2.1 ++ (punct .closeBrace).tokens e.2.2.2.2) := rfl

theorem in_of_mem_valuesOf {e : Part enum} {ts : List Located} (he : e.In ts)
    {v : Part enumValue} (h : v ∈ valuesOf e) : v.In ts := by
  obtain ⟨y, hy, rfl⟩ := List.mem_map.mp h
  obtain ⟨x, hx, hv, hbefore⟩ := mem_narrow hy
  obtain ⟨after, htokens⟩ := in_of_mem_partsOf hx
  rw [eq_of_enumValue? hv, ← hbefore] at htokens
  have hitems : y.In (enumItem.many.tokens e.tree.2.2.2.1) := ⟨after, htokens⟩
  have henum := (hitems.append ((punct .closeBrace).tokens e.tree.2.2.2.2)).behind (enumHead e.tree)
  rw [← enum_tokens] at henum
  rw [← Part.behind_behind]
  exact he.trans henum

/-! ### Their numbers -/

/-- The tokens of a field before its number. -/
def fieldLead (e : field.Tree) : List Located :=
  (optionalLabel.seq <| typeRef.seq <| identifier.seq <| punct .equals).tokens
    (e.1, e.2.1, e.2.2.1, e.2.2.2.1)

/-- The token of the number of a field. -/
def fieldNumber (e : field.Tree) : Located := e.2.2.2.2.1.val

/-- The sign of a number, if it has one. -/
def sign : signedInteger.Tree → List Located
  | ⟨true, minus, _⟩ => [minus.val]
  | ⟨false, _⟩ => []

/-- The token of a number behind its sign. -/
def magnitude : signedInteger.Tree → Located
  | ⟨true, _, t⟩ => t.val
  | ⟨false, t⟩ => t.val

/-- The tokens of an enum value before its number, the sign included. -/
def valueLead (v : enumValue.Tree) : List Located :=
  identifier.tokens v.1 ++ ((punct .equals).tokens v.2.1 ++ sign v.2.2.1)

/-- The number of an enum value is negative. -/
def valueNegative (v : enumValue.Tree) : Bool := v.2.2.1.1

/-- The token of the number of an enum value. -/
def valueNumber (v : enumValue.Tree) : Located := magnitude v.2.2.1

/-- A number has the value of its token under its sign. -/
theorem int32?_fieldNumber (e : field.Tree) :
    int32? false (fieldNumber e).token = some (field.value e).number :=
  (Option.some_get _).symm

theorem int32?_magnitude (n : signedInteger.Tree) :
    int32? n.1 (magnitude n).token = some (signedInteger.value n) := by
  obtain ⟨negative, n⟩ := n
  cases negative with
  | true => exact (Option.some_get n.2.property).symm
  | false => exact (Option.some_get n.property).symm

theorem int32?_valueNumber (v : enumValue.Tree) :
    int32? (valueNegative v) (valueNumber v).token = some (enumValue.value v).number :=
  int32?_magnitude v.2.2.1

theorem signedInteger_tokens (n : signedInteger.Tree) :
    signedInteger.tokens n = sign n ++ [magnitude n] := by
  obtain ⟨negative, n⟩ := n
  cases negative <;> rfl

theorem field_tokens (e : field.Tree) :
    ∃ after, field.tokens e = fieldLead e ++ fieldNumber e :: after := by
  refine ⟨fieldOptions.tokens e.2.2.2.2.2.1 ++ (punct .semicolon).tokens e.2.2.2.2.2.2, ?_⟩
  simp [fieldLead, fieldNumber, field]

theorem enumValue_tokens (v : enumValue.Tree) :
    ∃ after, enumValue.tokens v = valueLead v ++ valueNumber v :: after := by
  refine ⟨fieldOptions.tokens v.2.2.2.1 ++ (punct .semicolon).tokens v.2.2.2.2, ?_⟩
  have hsigned := signedInteger_tokens v.2.2.1
  simp [valueLead, valueNumber, enumValue, hsigned]

/-! ### What they declare -/

theorem map_tree_behind (ts : List Located) (xs : List (Part A)) :
    (xs.map (.behind ts)).map Part.tree = xs.map Part.tree := by
  rw [List.map_map]
  rfl

/-- The members of a body declare its fields and enums, by induction on the body. -/
theorem Body.declares (b : Body) :
    Member.fieldsIn b.members = ((b.parts.map Part.tree).filterMap field?).map field.value ∧
      Member.enumsIn b.members = ((b.parts.map Part.tree).filterMap enum?).map enum.value := by
  induction b with
  | close brace => exact ⟨rfl, rfl⟩
  | plain member rest ih =>
      rw [Body.members, Member.fieldsIn_append, Member.enumsIn_append, ih.1, ih.2, Body.parts,
        List.map_cons, map_tree_behind]
      obtain ⟨kind, e⟩ := member
      cases kind <;> exact ⟨rfl, rfl⟩
  | message head inner rest ihInner ihRest =>
      simp only [Body.members, Member.fieldsIn, Member.fields, Member.enumsIn, Member.enums,
        Body.parts, List.map_append, map_tree_behind, List.filterMap_append, ihInner.1, ihInner.2,
        ihRest.1, ihRest.2, and_self]

/-- So do the members of a statement. -/
theorem declares_statement (s : statement.Tree) :
    Member.fieldsIn ((statement.value s).filterMap Decl.member?) =
        (((membersOf s).map Part.tree).filterMap field?).map field.value ∧
      Member.enumsIn ((statement.value s).filterMap Decl.member?) =
        (((membersOf s).map Part.tree).filterMap enum?).map enum.value := by
  obtain ⟨kind, e⟩ := s
  cases kind with
  | message =>
      obtain ⟨head, body⟩ := e
      obtain ⟨hfields, henums⟩ := body.declares
      rw [membersOf, map_tree_behind, ← hfields, ← henums]
      exact ⟨List.append_nil _, List.append_nil _⟩
  | _ => exact ⟨rfl, rfl⟩

theorem map_tree_memberParts (d : file.Tree) :
    (memberParts d).map Part.tree =
      (statementsOf d).flatMap fun s => (membersOf s).map Part.tree := by
  simp only [memberParts, List.map_flatMap, map_tree_behind]
  rw [← List.flatMap_map Part.tree fun s => (membersOf s).map Part.tree, map_tree_partsOf]

/-- **The fields and enums of the declaration tree are those of the text.** -/
theorem declares_file (d : file.Tree) :
    (file.value d).fields = (fieldsOf d).map (field.value ·.tree) ∧
      (file.value d).enums = (enumsOf d).map (enum.value ·.tree) := by
  have hall : ∀ ss : List statement.Tree,
      Member.fieldsIn ((ss.flatMap statement.value).filterMap Decl.member?) =
          ((ss.flatMap fun s => (membersOf s).map Part.tree).filterMap field?).map field.value ∧
        Member.enumsIn ((ss.flatMap statement.value).filterMap Decl.member?) =
          ((ss.flatMap fun s => (membersOf s).map Part.tree).filterMap enum?).map enum.value := by
    intro ss
    induction ss with
    | nil => exact ⟨rfl, rfl⟩
    | cons s ss ih =>
        obtain ⟨hfields, henums⟩ := declares_statement s
        simp only [List.flatMap_cons, List.filterMap_append, List.map_append,
          Member.fieldsIn_append, Member.enumsIn_append, hfields, henums, ih.1, ih.2, and_self]
  have h := hall (statementsOf d)
  rw [← decls_value, ← map_tree_memberParts, ← map_tree_narrow, ← map_tree_narrow, List.map_map,
    List.map_map] at h
  exact h

/-- An item of an enum declares the value it is, if it is one. -/
theorem value_enumItem (i : enumItem.Tree) :
    enumItem.value i = ((enumValue? i).map enumValue.value).toList := by
  obtain ⟨kind, v⟩ := i
  cases kind <;> rfl

/-- The values of an enum are those of its items. -/
theorem declares_enum (e : Part enum) :
    (enum.value e.tree).values = (valuesOf e).map (enumValue.value ·.tree) := by
  have hitems : ∀ items : List enumItem.Tree,
      (enumItem.many.value items).flatten = (items.filterMap enumValue?).map enumValue.value := by
    intro items
    induction items with
    | nil => rfl
    | cons i items ih =>
        show enumItem.value i ++ (enumItem.many.value items).flatten = _
        rw [ih, value_enumItem]
        cases hi : enumValue? i with
        | none => rw [List.filterMap_cons_none hi]; rfl
        | some v => rw [List.filterMap_cons_some hi]; rfl
  have htrees : (narrow enumValue? (partsOf enumItem e.tree.2.2.2.1)).map Part.tree =
      e.tree.2.2.2.1.filterMap enumValue? := by
    rw [map_tree_narrow]
    exact congrArg (List.filterMap enumValue?) (map_tree_partsOf _)
  calc (enum.value e.tree).values
      = (e.tree.2.2.2.1.filterMap enumValue?).map enumValue.value := hitems _
    _ = ((valuesOf e).map Part.tree).map enumValue.value := by
        rw [valuesOf, map_tree_behind, htrees]
    _ = (valuesOf e).map (enumValue.value ·.tree) := List.map_map

end Schemata.Grammar
