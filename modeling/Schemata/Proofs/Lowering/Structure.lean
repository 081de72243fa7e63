/-
Lowering a tree is recursion over it.

The walk keeps its open messages on a stack.  A body sees the top of that stack only, and
a message that ends is gone from it, so what a member adds does not depend on what is open
around it: `contents` says what it is, by recursion over the member alone, and the walk
adds just that.  The same holds of what can go wrong, which is one list of faults in the
order of the text, the first of which ends the work.  Both modes are treated at once; they
differ in where a message that ends leaves what was defined in it.
-/
import Schemata.Lowering
import Schemata.Proofs.Fallible

namespace Schemata

open Fallible Descriptor

/-! ### Fields and enums -/

/-- A named type without a last segment, or with an empty one. -/
def TypeRef.NamesNothing : TypeRef → Prop
  | .scalar _ => False
  | .named segments => segments = [] ∨ segments.getLast? = some ""

instance : DecidablePred TypeRef.NamesNothing
  | .scalar _ => inferInstanceAs (Decidable False)
  | .named segments => inferInstanceAs (Decidable (segments = [] ∨ segments.getLast? = some ""))

namespace FieldDecl

/-- The descriptor of a field. -/
def lowered (enumNames : List String) (f : FieldDecl) : Field :=
  let label := f.label?.getD .optional
  match f.type with
  | .scalar s => ⟨f.name, f.number, .scalar s, none, label⟩
  | .named segments =>
    let kind := if segments.getLast?.getD "" ∈ enumNames then .enum else .message
    ⟨f.name, f.number, kind, some (".".intercalate segments), label⟩

/-- What is wrong with a field of the file. -/
def fault? (file : String) (f : FieldDecl) : Option Error :=
  match f.type with
  | .scalar _ => none
  | .named segments =>
    if segments = [] ∨ segments.getLast? = some "" then
      some (.unresolvedType file f.line (".".intercalate segments))
    else none

theorem fault?_eq_none {file : String} {f : FieldDecl} :
    f.fault? file = none ↔ ¬ f.type.NamesNothing := by
  unfold fault?
  cases f.type <;> simp [TypeRef.NamesNothing]

end FieldDecl

/-- The descriptor of an enum: its name, and the name and the number of each of its values. -/
def EnumDecl.lowered (e : EnumDecl) : Enum where
  name := e.name
  values := e.values.map fun v => { name := v.name, number := v.number }

theorem Lowering.enum_eq (e : EnumDecl) : enum e = e.lowered := rfl

theorem Lowering.field_eq (ctx : Context) (f : FieldDecl) :
    field ctx f = checked (f.fault? ctx.file).toList (f.lowered ctx.enumNames) := by
  have hnothing : ∀ segments : List String, segments.getLast?.getD "" = "" ↔
      segments = [] ∨ segments.getLast? = some "" := by
    intro segments
    cases h : segments.getLast? with
    | none => simp [List.getLast?_eq_none_iff.mp h]
    | some last => simpa [Option.getD] using fun hnil : segments = [] => by simp [hnil] at h
  cases htype : f.type with
  | scalar s => simp [field, FieldDecl.fault?, FieldDecl.lowered, htype]
  | named segments =>
      by_cases h : segments.getLast?.getD "" = ""
      · simp [field, FieldDecl.fault?, htype, TypeRef.text, h, (hnothing segments).mp h]
      · have hsome : ¬ (segments = [] ∨ segments.getLast? = some "") := by rwa [← hnothing]
        simp [field, FieldDecl.fault?, FieldDecl.lowered, htype, TypeRef.text, h, hsome]

mutual

/-- The fields of a member, its own and those within it, in order. -/
def Member.fields : Member → List FieldDecl
  | .field f => [f]
  | .enum _ => []
  | .message _ _ body => Member.fieldsIn body

/-- The fields of a body, at any depth and in order. -/
def Member.fieldsIn : List Member → List FieldDecl
  | [] => []
  | m :: ms => m.fields ++ Member.fieldsIn ms

end

namespace Lowering

/-! ### Contents -/

/-- What members add where they stand. -/
@[ext] structure Contents where
  fields : List Field
  messages : List Message
  enums : List Enum

namespace Contents

def empty : Contents := ⟨[], [], []⟩

instance : Append Contents :=
  ⟨fun a b => ⟨a.fields ++ b.fields, a.messages ++ b.messages, a.enums ++ b.enums⟩⟩

@[simp] theorem fields_append (a b : Contents) : (a ++ b).fields = a.fields ++ b.fields := rfl

@[simp] theorem messages_append (a b : Contents) :
    (a ++ b).messages = a.messages ++ b.messages := rfl

@[simp] theorem enums_append (a b : Contents) : (a ++ b).enums = a.enums ++ b.enums := rfl

theorem empty_append (c : Contents) : empty ++ c = c := rfl

theorem append_empty (c : Contents) : c ++ empty = c := by
  ext1 <;> simp [empty]

theorem append_assoc (a b c : Contents) : a ++ b ++ c = a ++ (b ++ c) := by
  ext1 <;> simp

/-- What a message with these contents adds where it stands: itself, and in flatten mode
what is defined in it before it. -/
def enclosed (nesting : Nesting) (name : String) (c : Contents) : Contents :=
  match nesting with
  | .nested => ⟨[], [⟨name, c.fields, c.messages, c.enums⟩], []⟩
  | .flatten => ⟨[], c.messages ++ [⟨name, c.fields, [], []⟩], c.enums⟩

end Contents

mutual

/-- What a member adds where it stands. -/
def contents (nesting : Nesting) (enumNames : List String) : Member → Contents
  | .field f => ⟨[f.lowered enumNames], [], []⟩
  | .enum e => ⟨[], [], [e.lowered]⟩
  | .message name _ body => (contentsIn nesting enumNames body).enclosed nesting name

/-- What the members of a body add. -/
def contentsIn (nesting : Nesting) (enumNames : List String) : List Member → Contents
  | [] => .empty
  | m :: ms => contents nesting enumNames m ++ contentsIn nesting enumNames ms

end

theorem contentsIn_append (nesting : Nesting) (enumNames : List String) (ms ns : List Member) :
    contentsIn nesting enumNames (ms ++ ns) =
      contentsIn nesting enumNames ms ++ contentsIn nesting enumNames ns := by
  induction ms with
  | nil => rw [List.nil_append, contentsIn, Contents.empty_append]
  | cons m ms ih => rw [List.cons_append, contentsIn, ih, contentsIn, Contents.append_assoc]

/-- Adds contents where the mode puts them.  Without an open message fields go nowhere. -/
def Draft.add (nesting : Nesting) (d : Draft) (c : Contents) : Draft :=
  match nesting, d.opened with
  | .nested, m :: ms =>
    { d with opened := ⟨m.name, m.fields ++ c.fields, m.messages ++ c.messages,
        m.enums ++ c.enums⟩ :: ms }
  | .flatten, m :: ms =>
    ⟨{ m with fields := m.fields ++ c.fields } :: ms,
      { d.file with
        messages := d.file.messages ++ c.messages, enums := d.file.enums ++ c.enums }⟩
  | _, [] =>
    { d with file := { d.file with
        messages := d.file.messages ++ c.messages, enums := d.file.enums ++ c.enums } }

namespace Draft

variable (nesting : Nesting) (d : Draft)

theorem add_empty : d.add nesting .empty = d := by
  obtain ⟨_ | ⟨⟨_, _, _, _⟩, _⟩, file⟩ := d <;> cases nesting <;> simp [add, Contents.empty]

theorem add_append (a b : Contents) :
    (d.add nesting a).add nesting b = d.add nesting (a ++ b) := by
  obtain ⟨_ | ⟨⟨_, _, _, _⟩, _⟩, file⟩ := d <;> cases nesting <;> simp [add]

theorem addField_eq (f : Field) : d.addField f = d.add nesting ⟨[f], [], []⟩ := by
  obtain ⟨_ | ⟨⟨_, _, _, _⟩, _⟩, file⟩ := d <;> cases nesting <;> simp [add, addField]

theorem addEnum_eq (e : Enum) : d.addEnum nesting e = d.add nesting ⟨[], [], [e]⟩ := by
  obtain ⟨_ | ⟨⟨_, _, _, _⟩, _⟩, file⟩ := d <;> cases nesting <;> simp [add, addEnum]

/-- A message that is opened, filled and ended leaves the stack as it was and adds what it
encloses to the top of it. -/
theorem close_add_begin (name : String) (c : Contents) :
    ((d.begin name).add nesting c).close nesting = d.add nesting (c.enclosed nesting name) := by
  obtain ⟨_ | ⟨⟨_, _, _, _⟩, _⟩, file⟩ := d <;> cases nesting <;>
    simp [add, begin, close, addMessage, Contents.enclosed, Message.empty]

end Draft

/-! ### The walk -/

/-- The faults of fields, in order. -/
def fieldFaults (file : String) (fields : List FieldDecl) : List Error :=
  fields.filterMap (FieldDecl.fault? file)

@[simp] theorem fieldFaults_append (file : String) (fs gs : List FieldDecl) :
    fieldFaults file (fs ++ gs) = fieldFaults file fs ++ fieldFaults file gs := by
  simp [fieldFaults]

theorem fieldFaults_eq_nil {file : String} {fields : List FieldDecl} :
    fieldFaults file fields = [] ↔ ∀ f ∈ fields, ¬ f.type.NamesNothing := by
  simp [fieldFaults, FieldDecl.fault?_eq_none]

mutual

/-- The walk over a member adds its contents, whatever is open, unless one of its fields
has a fault. -/
theorem member_eq (ctx : Context) (m : Member) (d : Draft) :
    member ctx m d =
      checked (fieldFaults ctx.file m.fields)
        (d.add ctx.nesting (contents ctx.nesting ctx.enumNames m)) := by
  cases m with
  | field f =>
      have hfaults : fieldFaults ctx.file (Member.fields (.field f)) =
          (f.fault? ctx.file).toList := by
        rw [Member.fields, fieldFaults]
        cases h : f.fault? ctx.file <;> simp [h]
      rw [member, field_eq, hfaults, contents, checked_map, Draft.addField_eq ctx.nesting]
  | enum e =>
      rw [member, enum_eq, Draft.addEnum_eq, Member.fields, contents]
      rfl
  | message name line body =>
      rw [member, members_eq ctx body, checked_map, Draft.close_add_begin, Member.fields, contents]

/-- The same of the members of a body. -/
theorem members_eq (ctx : Context) (ms : List Member) (d : Draft) :
    members ctx ms d =
      checked (fieldFaults ctx.file (Member.fieldsIn ms))
        (d.add ctx.nesting (contentsIn ctx.nesting ctx.enumNames ms)) := by
  cases ms with
  | nil =>
      rw [members, Member.fieldsIn, contentsIn, Draft.add_empty]
      rfl
  | cons m ms =>
      rw [members, member_eq ctx m, Member.fieldsIn, contentsIn, fieldFaults_append,
        ← Draft.add_append]
      exact checked_bind _ _ (members_eq ctx ms _)

end

end Lowering

/-! ### Files -/

namespace Decl

/-- The message or enum a declaration is, if it is one. -/
def member? : Decl → Option Member
  | enum e => some (.enum e)
  | message name line body => some (.message name line body)
  | _ => none

/-- The package a declaration names, if it names one. -/
def package? : Decl → Option String
  | package name _ => some name
  | _ => none

/-- The line of a package declaration. -/
def packageLine? : Decl → Option Nat
  | package _ line => some line
  | _ => none

/-- The fields of a declaration, at any depth and in order. -/
def fields (d : Decl) : List FieldDecl := Member.fieldsIn d.member?.toList

/-- What is wrong with a declaration, the first package declaration before it standing on
the line given. -/
def faults (file : String) (first? : Option Nat) : Decl → List Error
  | package _ line =>
    (first?.map fun first => .grammar file line
      ("duplicate package declaration: first declared at line " ++ toString first)).toList
  | d => Lowering.fieldFaults file d.fields

/-- What is wrong with declarations, in order. -/
def faultsFrom (file : String) (first? : Option Nat) : List Decl → List Error
  | [] => []
  | d :: ds => d.faults file first? ++ faultsFrom file (first?.or d.packageLine?) ds

end Decl

namespace Schema

/-- The messages and enums at the top level, in order. -/
def members (s : Schema) : List Member := s.decls.filterMap Decl.member?

/-- The packages declared, in order. -/
def packages (s : Schema) : List String := s.decls.filterMap Decl.package?

/-- The fields of the tree, at any depth and in order. -/
def fields (s : Schema) : List FieldDecl := Member.fieldsIn s.members

/-- What is wrong with the tree of the file, in the order of the text. -/
def faults (file : String) (s : Schema) : List Error := Decl.faultsFrom file none s.decls

end Schema

namespace Lowering

/-- The places of the imports of one kind, the first import having the place given. -/
def placesFrom (start : Nat) (kind : ImportKind) (is : List ImportDecl) : List UInt64 :=
  ((is.zipIdx start).filter (·.1.kind = kind)).map (.ofNat ·.2)

theorem placesFrom_append (start : Nat) (kind : ImportKind) (is js : List ImportDecl) :
    placesFrom start kind (is ++ js) =
      placesFrom start kind is ++ placesFrom (start + is.length) kind js := by
  simp [placesFrom, List.zipIdx_append]

/-- A file and what declarations add to it. -/
def grown (ctx : Context) (f : File) (ds : List Decl) : File :=
  let imports := ds.filterMap Decl.import?
  let c := contentsIn ctx.nesting ctx.enumNames (ds.filterMap Decl.member?)
  { f with
    package? := (ds.filterMap Decl.package?).getLast?.or f.package?
    dependencies := f.dependencies ++ imports.map (·.path)
    publicDependencies :=
      f.publicDependencies ++ placesFrom f.dependencies.length .reexport imports
    weakDependencies := f.weakDependencies ++ placesFrom f.dependencies.length .weak imports
    messages := f.messages ++ c.messages
    enums := f.enums ++ c.enums }

theorem grown_nil (ctx : Context) (f : File) : grown ctx f [] = f := by
  simp [grown, placesFrom, contentsIn, Contents.empty]

theorem grown_append (ctx : Context) (f : File) (ds es : List Decl) :
    grown ctx f (ds ++ es) = grown ctx (grown ctx f ds) es := by
  simp [grown, placesFrom_append, contentsIn_append, List.filterMap_append, List.getLast?_append,
    Option.or_assoc]

/-- A message or enum at the top level is walked over as a member, with nothing open. -/
theorem decl_eq_of_member {ctx : Context} {d : Decl} {m : Member} (hm : d.member? = some m)
    {p : Progress} (hp : p.opened = []) :
    decl ctx p d = checked (d.faults ctx.file p.packageLine?)
      ⟨⟨[], grown ctx p.file [d]⟩, p.packageLine?.or d.packageLine?⟩ := by
  obtain ⟨⟨opened, file⟩, line?⟩ := p
  obtain rfl : opened = [] := hp
  have hdecl : decl ctx ⟨⟨[], file⟩, line?⟩ d =
      (do return ⟨← member ctx m ⟨[], file⟩, line?⟩) := by
    cases d <;> cases hm <;> rfl
  have hline : d.packageLine? = none := by cases d <;> cases hm <;> rfl
  have hfaults : d.faults ctx.file line? = fieldFaults ctx.file m.fields := by
    have hfields : d.fields = m.fields := by simp [Decl.fields, hm, Member.fieldsIn]
    rw [← hfields]
    cases d <;> cases hm <;> rfl
  have hgrown : (⟨[], file⟩ : Draft).add ctx.nesting (contents ctx.nesting ctx.enumNames m) =
      ⟨[], grown ctx file [d]⟩ := by
    cases d <;> cases hm <;>
      simp [Draft.add, grown, placesFrom, List.filterMap_cons, Decl.import?, Decl.member?,
        Decl.package?, contentsIn, Contents.append_empty]
  rw [hdecl, member_eq, checked_map, hfaults, hgrown, hline, Option.or_none]

/-- The walk over a declaration adds what it declares, unless something is wrong with it. -/
theorem decl_eq (ctx : Context) (d : Decl) {p : Progress} (hp : p.opened = []) :
    decl ctx p d = checked (d.faults ctx.file p.packageLine?)
      ⟨⟨[], grown ctx p.file [d]⟩, p.packageLine?.or d.packageLine?⟩ := by
  obtain ⟨⟨opened, file⟩, line?⟩ := p
  obtain rfl : opened = [] := hp
  cases d with
  | importing i =>
      have hfaults : Decl.faults ctx.file line? (.importing i) = [] := rfl
      cases hk : i.kind <;>
        simp [decl, addImport, hk, hfaults, grown, List.filterMap_cons, placesFrom, Decl.import?,
          Decl.member?, Decl.package?, Decl.packageLine?, contentsIn, Contents.empty]
  | package name line =>
      cases line? with
      | none =>
          simp [decl, Decl.faults, grown, List.filterMap_cons, placesFrom, Decl.import?,
            Decl.member?, Decl.package?, Decl.packageLine?, contentsIn, Contents.empty]
      | some first => rfl
  | enum e => exact decl_eq_of_member rfl rfl
  | message name line body => exact decl_eq_of_member rfl rfl

/-- The walk over declarations adds what they declare, in order, up to the first fault. -/
theorem decls_eq (ctx : Context) (ds : List Decl) {p : Progress} (hp : p.opened = []) :
    (do return (← ds.foldlM (decl ctx) p).file) =
      checked (Decl.faultsFrom ctx.file p.packageLine? ds) (grown ctx p.file ds) := by
  induction ds generalizing p with
  | nil => rw [grown_nil]; rfl
  | cons d ds ih =>
      rw [List.foldlM_cons, decl_eq ctx d hp, bind_assoc, Decl.faultsFrom,
        show d :: ds = [d] ++ ds from rfl, grown_append]
      exact checked_bind _ _ (ih rfl)

end Lowering

/-- Lowering answers with the first fault of the tree, or if there is none with what its
declarations add to an empty file. -/
theorem Schema.lower_eq (s : Schema) (name : String) (enumNames : List String)
    (nesting : Nesting) : s.lower name enumNames nesting =
      checked (s.faults name)
        (Lowering.grown ⟨name, enumNames, nesting⟩ (.empty name s.edition) s.decls) :=
  Lowering.decls_eq ⟨name, enumNames, nesting⟩ s.decls rfl

/-! ### Faults -/

namespace Decl

/-- Nothing is wrong with a declaration if it is no package behind another and the types of
its fields name something. -/
theorem faults_eq_nil {file : String} {first? : Option Nat} {d : Decl} :
    d.faults file first? = [] ↔
      (first? = none ∨ d.packageLine? = none) ∧ ∀ f ∈ d.fields, ¬ f.type.NamesNothing := by
  cases d with
  | package name line =>
      have hfields : (package name line).fields = [] := rfl
      simp [faults, packageLine?, hfields]
  | importing i => simp [faults, packageLine?, Lowering.fieldFaults_eq_nil]
  | enum e => simp [faults, packageLine?, Lowering.fieldFaults_eq_nil]
  | message name line body => simp [faults, packageLine?, Lowering.fieldFaults_eq_nil]

theorem length_packages_cons (d : Decl) (ds : List Decl) :
    ((d :: ds).filterMap package?).length =
      d.packageLine?.toList.length + (ds.filterMap package?).length := by
  rw [List.filterMap_cons]
  cases d <;> simp [package?, packageLine?, Nat.add_comm]

theorem faultsFrom_eq_nil {file : String} {first? : Option Nat} {ds : List Decl} :
    faultsFrom file first? ds = [] ↔
      first?.toList.length + (ds.filterMap package?).length ≤ 1 ∧
        ∀ f ∈ ds.flatMap fields, ¬ f.type.NamesNothing := by
  induction ds generalizing first? with
  | nil => cases first? <;> simp [faultsFrom]
  | cons d ds ih =>
      have hcount : (first? = none ∨ d.packageLine? = none) ∧
          (first?.or d.packageLine?).toList.length + (ds.filterMap package?).length ≤ 1 ↔
          first?.toList.length + ((d :: ds).filterMap package?).length ≤ 1 := by
        rw [length_packages_cons]
        cases hline : d.packageLine? with
        | none => simp
        | some line =>
            cases first? with
            | none => simp
            | some first =>
                refine iff_of_false ?_ ?_
                · rintro ⟨hnone | hnone, -⟩ <;> cases hnone
                · show ¬ 1 + (1 + (ds.filterMap package?).length) ≤ 1
                  omega
      rw [faultsFrom, List.append_eq_nil_iff, faults_eq_nil, ih, ← hcount, List.flatMap_cons,
        List.forall_mem_append, and_and_and_comm]

end Decl

theorem Member.fieldsIn_append (ms ns : List Member) :
    fieldsIn (ms ++ ns) = fieldsIn ms ++ fieldsIn ns := by
  induction ms with
  | nil => rw [List.nil_append, fieldsIn, List.nil_append]
  | cons m ms ih => rw [List.cons_append, fieldsIn, ih, fieldsIn, List.append_assoc]

theorem Schema.fields_eq (s : Schema) : s.fields = s.decls.flatMap Decl.fields := by
  rw [fields, members]
  induction s.decls with
  | nil => rw [List.filterMap_nil, Member.fieldsIn, List.flatMap_nil]
  | cons d ds ih =>
      rw [List.flatMap_cons, ← ih, Decl.fields, ← Member.fieldsIn_append]
      cases hd : d.member? <;> simp [hd]

/-- Nothing is wrong with a tree exactly if it declares no second package and the type of
every field, however deep, names something. -/
theorem Schema.faults_eq_nil (s : Schema) (file : String) :
    s.faults file = [] ↔ s.packages.length ≤ 1 ∧ ∀ f ∈ s.fields, ¬ f.type.NamesNothing := by
  rw [faults, Decl.faultsFrom_eq_nil, s.fields_eq]
  simp [packages]

/-! ### Packages -/

/-- The complaints about package declarations on these lines: the first may stand, every
other one is told where the first is. -/
def packageFaults (file : String) : List Nat → List Error
  | [] => []
  | first :: later => later.map fun line => .grammar file line
      ("duplicate package declaration: first declared at line " ++ toString first)

/-- Where the types of all fields name something only packages can be wrong. -/
theorem Decl.faultsFrom_eq_packageFaults {file : String} {first? : Option Nat} {ds : List Decl}
    (h : ∀ f ∈ ds.flatMap fields, ¬ f.type.NamesNothing) :
    faultsFrom file first? ds =
      packageFaults file (first?.toList ++ ds.filterMap packageLine?) := by
  induction ds generalizing first? with
  | nil => cases first? <;> simp [faultsFrom, packageFaults]
  | cons d ds ih =>
      rw [List.flatMap_cons, List.forall_mem_append] at h
      obtain ⟨hown, hrest⟩ := h
      rw [faultsFrom, ih hrest]
      cases hline : d.packageLine? with
      | none =>
          have hnone : d.faults file first? = [] := faults_eq_nil.mpr ⟨.inr hline, hown⟩
          rw [hnone, Option.or_none, List.nil_append, List.filterMap_cons_none hline]
      | some line =>
          rw [List.filterMap_cons_some hline]
          cases first? with
          | none =>
              have hnone : d.faults file none = [] := faults_eq_nil.mpr ⟨.inl rfl, hown⟩
              rw [hnone]
              rfl
          | some first =>
              cases d with
              | package name line' =>
                  obtain rfl := Option.some.inj hline
                  rfl
              | _ => cases hline

/-- The lines of the package declarations, in order. -/
def Schema.packageLines (s : Schema) : List Nat := s.decls.filterMap Decl.packageLine?

theorem Schema.faults_eq_packageFaults {s : Schema} (file : String)
    (h : ∀ f ∈ s.fields, ¬ f.type.NamesNothing) :
    s.faults file = packageFaults file s.packageLines := by
  rw [s.fields_eq] at h
  exact Decl.faultsFrom_eq_packageFaults h

end Schemata
