/-
What the order of declarations means to lowering.

A named type is an enum or a message, and which of the two it is depends on the enum names
of the whole tree.  They are collected by one walk over the tree, before the walk that lowers
it, so what counts is that an enum is declared and not where.

Hence a declaration at the top level comes to the same part of a descriptor wherever it
stands, as long as the declarations around it stay the same but for their order; and a
descriptor is put together from such parts, one after the other.
-/
import Mathlib.Data.List.Forall2
import Schemata.Proofs.Lowering.Flattened
import Schemata.Proofs.Lowering.Nested

namespace Schemata

open Fallible Descriptor

/-! ### The enums of a tree and their names -/

mutual

theorem Member.enumNames_eq (m : Member) : m.enumNames = m.enums.map (·.name) := by
  cases m with
  | field f => rw [enumNames, enums, List.map_nil]
  | enum e => rw [enumNames, enums, List.map_singleton]
  | message name line body => rw [enumNames, enums, enumNamesIn_eq body]

theorem Member.enumNamesIn_eq (ms : List Member) : enumNamesIn ms = (enumsIn ms).map (·.name) := by
  cases ms with
  | nil => rw [enumNamesIn, enumsIn, List.map_nil]
  | cons m ms => rw [enumNamesIn, enumsIn, List.map_append, enumNames_eq m, enumNamesIn_eq ms]

end

theorem Decl.enumNames_eq (d : Decl) : d.enumNames = Member.enumNamesIn d.member?.toList := by
  cases d <;> simp [enumNames, member?, Member.enumNamesIn, Member.enumNames]

theorem Member.enumNamesIn_append (ms ns : List Member) :
    enumNamesIn (ms ++ ns) = enumNamesIn ms ++ enumNamesIn ns := by
  rw [enumNamesIn_eq, enumsIn_append, List.map_append, ← enumNamesIn_eq, ← enumNamesIn_eq]

/-- The names collected are those of the enums of every depth. -/
theorem Schema.enumNames_eq (s : Schema) : s.enumNames = s.enums.map (·.name) := by
  rw [enumNames, enums, ← Member.enumNamesIn_eq, members]
  induction s.decls with
  | nil => rw [List.flatMap_nil, List.filterMap_nil, Member.enumNamesIn]
  | cons d ds ih =>
      rw [List.flatMap_cons, ih, Decl.enumNames_eq, ← Member.enumNamesIn_append]
      cases hd : d.member? <;> simp [hd]

/-! ### Fields -/

/-- The field `g` is what the field `f` of the tree is lowered to.  A named type keeps its text
and is an enum if an enum of the tree, wherever it is declared, goes by the last segment; it is
a message otherwise. -/
structure Schema.Classifies (s : Schema) (f : FieldDecl) (g : Field) : Prop where
  name : g.name = f.name
  number : g.number = f.number
  scalar : ∀ t, f.type = .scalar t → g.kind = .scalar t ∧ g.typeName? = none
  typeName : ∀ segments, f.type = .named segments →
    g.typeName? = some (".".intercalate segments)
  enum_iff : ∀ segments, f.type = .named segments →
    (g.kind = .enum ↔ ∃ e ∈ s.enums, segments.getLast? = some e.name)
  message_iff : ∀ segments, f.type = .named segments →
    (g.kind = .message ↔ ¬ ∃ e ∈ s.enums, segments.getLast? = some e.name)

/-- A field whose type names something is classified by the enums of the tree. -/
theorem Schema.classifies_lowered (s : Schema) {f : FieldDecl} (h : ¬ f.type.NamesNothing) :
    s.Classifies f (f.lowered s.enumNames) := by
  cases htype : f.type with
  | scalar t =>
      have hlowered : f.lowered s.enumNames =
          ⟨f.name, f.number, .scalar t, none, f.label?.getD .optional⟩ := by
        rw [FieldDecl.lowered, htype]
      rw [hlowered]
      refine ⟨rfl, rfl, ?_, by simp [htype], by simp [htype], by simp [htype]⟩
      intro t' ht'
      cases htype.symm.trans ht'
      exact ⟨rfl, rfl⟩
  | named segments =>
      rw [htype, TypeRef.NamesNothing, not_or] at h
      obtain ⟨last, hlast⟩ := Option.ne_none_iff_exists'.mp (mt List.getLast?_eq_none_iff.mp h.1)
      have hmem : last ∈ s.enumNames ↔ ∃ e ∈ s.enums, segments.getLast? = some e.name := by
        simp [s.enumNames_eq, hlast, eq_comm]
      have hlowered : f.lowered s.enumNames = ⟨f.name, f.number,
          if last ∈ s.enumNames then .enum else .message, some (".".intercalate segments),
          f.label?.getD .optional⟩ := by
        simp [FieldDecl.lowered, htype, hlast]
      rw [hlowered]
      refine ⟨rfl, rfl, by simp [htype], ?_, ?_, ?_⟩
      all_goals
        intro segments' hsegments'
        cases htype.symm.trans hsegments'
      · rfl
      · rw [← hmem]
        by_cases hlast' : last ∈ s.enumNames <;> simp [hlast']
      · rw [← hmem]
        by_cases hlast' : last ∈ s.enumNames <;> simp [hlast']

/-! ### Messages at any depth -/

mutual

/-- The messages of a member by their names and bodies, each behind those nested in it. -/
def Member.bodies : Member → List (String × List Member)
  | .field _ => []
  | .enum _ => []
  | .message name _ body => Member.bodiesIn body ++ [(name, body)]

/-- The messages of a body, at any depth. -/
def Member.bodiesIn : List Member → List (String × List Member)
  | [] => []
  | m :: ms => m.bodies ++ Member.bodiesIn ms

end

/-- The fields of a body itself are among those of every depth. -/
theorem Member.mem_fieldsIn_of_field? {ms : List Member} {f : FieldDecl}
    (hf : f ∈ ms.filterMap field?) : f ∈ fieldsIn ms := by
  induction ms with
  | nil => simp at hf
  | cons m ms ih =>
      rw [fieldsIn, List.mem_append]
      cases m with
      | field g =>
          rw [fields, List.mem_singleton]
          exact (List.mem_cons.mp hf).imp_right ih
      | enum e => exact .inr (ih hf)
      | message name line body => exact .inr (ih hf)

mutual

/-- The fields of every message of a member are among those of the member. -/
theorem Member.mem_fields_of_bodies (m : Member) {body : String × List Member}
    (hbody : body ∈ m.bodies) {f : FieldDecl} (hf : f ∈ body.2.filterMap field?) :
    f ∈ m.fields := by
  cases m with
  | field g => simp [bodies] at hbody
  | enum e => simp [bodies] at hbody
  | message name line members =>
      rw [bodies] at hbody
      rw [fields]
      rcases List.mem_append.mp hbody with hbody | hbody
      · exact mem_fieldsIn_of_bodiesIn members hbody hf
      · rw [List.mem_singleton.mp hbody] at hf
        exact mem_fieldsIn_of_field? hf

theorem Member.mem_fieldsIn_of_bodiesIn (ms : List Member) {body : String × List Member}
    (hbody : body ∈ bodiesIn ms) {f : FieldDecl} (hf : f ∈ body.2.filterMap field?) :
    f ∈ fieldsIn ms := by
  cases ms with
  | nil => simp [bodiesIn] at hbody
  | cons m ms =>
      rw [bodiesIn] at hbody
      rw [fieldsIn, List.mem_append]
      rcases List.mem_append.mp hbody with hbody | hbody
      · exact .inl (mem_fields_of_bodies m hbody hf)
      · exact .inr (mem_fieldsIn_of_bodiesIn ms hbody hf)

end

namespace Lowering

/-- The message of a name and a body, its definitions left out. -/
def shallow (enumNames : List String) (body : String × List Member) : Message :=
  ⟨body.1, (body.2.filterMap Member.field?).map (·.lowered enumNames), [], []⟩

mutual

/-- The messages a member adds, with every definition at the top, are those of its bodies. -/
theorem flattenedIn_contents (enumNames : List String) (m : Member) :
    Message.flattenedIn (contents .nested enumNames m).messages =
      m.bodies.map (shallow enumNames) := by
  cases m with
  | field f => rw [contents, Member.bodies, Message.flattenedIn, List.map_nil]
  | enum e => rw [contents, Member.bodies, Message.flattenedIn, List.map_nil]
  | message name line body =>
      rw [contents, Member.bodies, List.map_append, ← flattenedIn_contentsIn enumNames body,
        contentsIn_nested, Contents.enclosed, Message.flattenedIn, Message.flattened,
        Message.flattenedIn, List.append_nil]
      rfl

theorem flattenedIn_contentsIn (enumNames : List String) (ms : List Member) :
    Message.flattenedIn (contentsIn .nested enumNames ms).messages =
      (Member.bodiesIn ms).map (shallow enumNames) := by
  cases ms with
  | nil => rw [contentsIn, Member.bodiesIn, Contents.empty, Message.flattenedIn, List.map_nil]
  | cons m ms =>
      rw [contentsIn, Member.bodiesIn, List.map_append, ← flattenedIn_contents enumNames m,
        ← flattenedIn_contentsIn enumNames ms, Contents.messages_append,
        Message.flattenedIn_append]

end

/-- Messages that hold no definition stay as they are. -/
theorem flattenedIn_of_flat {ms : List Message} (h : ∀ m ∈ ms, Flat m) :
    Message.flattenedIn ms = ms := by
  induction ms with
  | nil => rw [Message.flattenedIn]
  | cons m ms ih =>
      obtain ⟨name, fields, messages, enums⟩ := m
      obtain ⟨rfl, rfl⟩ := h _ List.mem_cons_self
      rw [Message.flattenedIn, ih fun n hn => h n (List.mem_cons_of_mem _ hn), Message.flattened,
        Message.flattenedIn]
      rfl

end Lowering

/-- The message `m` has the name of a message of the tree, and field by field what the fields of
that message's body are lowered to. -/
structure Schema.Renders (s : Schema) (body : String × List Member) (m : Message) : Prop where
  name : m.name = body.1
  fields : List.Forall₂ s.Classifies (body.2.filterMap Member.field?) m.fields

/-- In either mode the messages of a descriptor render those of the tree, each behind those
nested in it. -/
theorem Schema.renders_lower {s : Schema} {name : String} {nesting : Nesting} {file : File}
    (h : s.lower name s.enumNames nesting = .ok file) :
    List.Forall₂ s.Renders (Member.bodiesIn s.members) (Message.flattenedIn file.messages) := by
  have hfields : ∀ f ∈ s.fields, ¬ f.type.NamesNothing := by
    rw [lower_eq] at h
    exact ((s.faults_eq_nil name).mp (checked_eq_ok.mp h).1).2
  have hmessages : Message.flattenedIn file.messages =
      (Member.bodiesIn s.members).map (Lowering.shallow s.enumNames) := by
    rw [← Lowering.flattenedIn_contentsIn]
    cases nesting with
    | nested => rw [(contents_of_lower h).1]
    | flatten =>
        rw [Lowering.flattenedIn_of_flat (flat_lower h), (contents_of_lower h).1,
          Lowering.contentsIn_flatten]
        rfl
  rw [hmessages, List.forall₂_map_right_iff, List.forall₂_same]
  intro body hbody
  refine ⟨rfl, ?_⟩
  rw [Lowering.shallow, List.forall₂_map_right_iff, List.forall₂_same]
  exact fun f hf => s.classifies_lowered (hfields f (Member.mem_fieldsIn_of_bodiesIn _ hbody hf))

/-! ### Descriptors in parts -/

/-- What a declaration at the top level comes to in a descriptor. -/
inductive Descriptor.Part where
  | dependency (path : String) (kind : ImportKind)
  | package (name : String)
  | message (m : Message)
  | enum (e : Enum)

namespace Descriptor.Part

def dependency? : Part → Option (String × ImportKind)
  | dependency path kind => some (path, kind)
  | _ => none

def package? : Part → Option String
  | package name => some name
  | _ => none

def message? : Part → Option Message
  | message m => some m
  | _ => none

def enum? : Part → Option Enum
  | enum e => some e
  | _ => none

end Descriptor.Part

/-- The descriptor of these parts: each list has them in order, and the dependencies of one kind
are told by their places among all dependencies. -/
def Descriptor.File.ofParts (name edition : String) (parts : List Part) : File :=
  let dependencies := parts.filterMap Part.dependency?
  let places (kind : ImportKind) : List UInt64 :=
    (dependencies.zipIdx.filter (·.1.2 = kind)).map (.ofNat ·.2)
  { name, edition
    package? := (parts.filterMap Part.package?).getLast?
    dependencies := dependencies.map (·.1)
    publicDependencies := places .reexport
    weakDependencies := places .weak
    messages := parts.filterMap Part.message?
    enums := parts.filterMap Part.enum? }

/-- What the declaration comes to in nested mode. -/
def Decl.part (enumNames : List String) : Decl → Part
  | importing i => .dependency i.path i.kind
  | package name _ => .package name
  | enum e => .enum e.lowered
  | message name _ body => .message {
      name
      fields := (body.filterMap Member.field?).map (·.lowered enumNames)
      messages := Member.messagesIn enumNames body
      enums := (body.filterMap Member.enum?).map EnumDecl.lowered }

section

variable (enumNames : List String) (ds : List Decl)

theorem Decl.filterMap_package?_part :
    (ds.map (part enumNames)).filterMap Part.package? = ds.filterMap package? := by
  rw [List.filterMap_map]
  exact congrArg (List.filterMap · ds) (funext fun d => by cases d <;> rfl)

theorem Decl.filterMap_dependency?_part :
    (ds.map (part enumNames)).filterMap Part.dependency? =
      (ds.filterMap import?).map fun i => (i.path, i.kind) := by
  rw [List.filterMap_map, List.map_filterMap]
  exact congrArg (List.filterMap · ds) (funext fun d => by cases d <;> rfl)

theorem Decl.filterMap_message?_part :
    (ds.map (part enumNames)).filterMap Part.message? =
      (ds.filterMap member?).filterMap (Member.message? enumNames) := by
  rw [List.filterMap_map, List.filterMap_filterMap]
  refine congrArg (List.filterMap · ds) (funext fun d => ?_)
  cases d <;> simp [part, Part.message?, member?, Member.message?]

theorem Decl.filterMap_enum?_part :
    (ds.map (part enumNames)).filterMap Part.enum? =
      ((ds.filterMap member?).filterMap Member.enum?).map EnumDecl.lowered := by
  rw [List.filterMap_map, List.filterMap_filterMap, List.map_filterMap]
  exact congrArg (List.filterMap · ds) (funext fun d => by cases d <;> rfl)

/-- In nested mode declarations come to the descriptor of their parts. -/
theorem Lowering.grown_nested (name edition : String) :
    grown ⟨name, enumNames, .nested⟩ (.empty name edition) ds =
      .ofParts name edition (ds.map (Decl.part enumNames)) := by
  have hplaces (kind : ImportKind) : placesFrom 0 kind (ds.filterMap Decl.import?) =
      ((((ds.filterMap Decl.import?).map fun i => (i.path, i.kind)).zipIdx.filter
        (·.1.2 = kind)).map (.ofNat ·.2)) := by
    rw [placesFrom, List.zipIdx_map, List.filter_map, List.map_map]
    rfl
  simp only [File.ofParts, Decl.filterMap_package?_part, Decl.filterMap_dependency?_part,
    Decl.filterMap_message?_part, Decl.filterMap_enum?_part]
  simp [grown, File.empty, contentsIn_nested, Member.messagesIn_eq, hplaces]

end

/-! ### Other enum names, other orders -/

section

variable {names names' : List String}

/-- All that counts of the enum names is which there are. -/
theorem FieldDecl.lowered_congr (h : ∀ n, n ∈ names ↔ n ∈ names') :
    lowered names = lowered names' := by
  funext f
  simp only [lowered, h]

mutual

theorem Member.message?_congr (h : ∀ n, n ∈ names ↔ n ∈ names') (m : Member) :
    m.message? names = m.message? names' := by
  cases m with
  | field f => simp [message?]
  | enum e => simp [message?]
  | message name line body =>
      rw [message?, message?, FieldDecl.lowered_congr h, messagesIn_congr h body]

theorem Member.messagesIn_congr (h : ∀ n, n ∈ names ↔ n ∈ names') (ms : List Member) :
    messagesIn names ms = messagesIn names' ms := by
  cases ms with
  | nil => rw [messagesIn, messagesIn]
  | cons m ms => rw [messagesIn, messagesIn, message?_congr h m, messagesIn_congr h ms]

end

theorem Decl.part_congr (h : ∀ n, n ∈ names ↔ n ∈ names') : part names = part names' := by
  funext d
  cases d with
  | message name line body =>
      rw [part, part, FieldDecl.lowered_congr h, Member.messagesIn_congr h]
  | _ => rfl

end

/-- Nothing is wrong with a tree whose declarations stand in another order. -/
theorem Schema.faults_perm {s : Schema} {ds : List Decl} (hperm : s.decls.Perm ds) {name : String}
    (h : s.faults name = []) : Schema.faults name { s with decls := ds } = [] := by
  rw [faults_eq_nil] at h ⊢
  refine ⟨?_, fun f hf => h.2 f ?_⟩
  · have hlength := (hperm.filterMap Decl.package?).length_eq
    exact hlength ▸ h.1
  · rw [fields_eq] at hf ⊢
    exact (hperm.flatMap_right Decl.fields).mem_iff.mpr hf

/-- **Lowering ignores the order of declarations.**  In a tree that is lowered with the names of
its own enums, each field of a named type, at whatever depth, is an enum if an enum is declared
anywhere that goes by the last segment, and a message otherwise.  So each declaration comes to
a part of the descriptor that does not depend on the order: with the declarations in another
order the same parts come in that order. -/
theorem Schema.lower_ignores_order {s : Schema} {name : String} {nesting : Nesting} {file : File}
    (h : s.lower name s.enumNames nesting = .ok file) :
    List.Forall₂ s.Renders (Member.bodiesIn s.members) (Message.flattenedIn file.messages) ∧
    s.lower name s.enumNames .nested =
      .ok (.ofParts name s.edition (s.decls.map (Decl.part s.enumNames))) ∧
    ∀ ds, s.decls.Perm ds →
      Schema.lower { s with decls := ds } name (Schema.enumNames { s with decls := ds }) .nested =
        .ok (.ofParts name s.edition (ds.map (Decl.part s.enumNames))) := by
  have hfaults : s.faults name = [] := by
    rw [lower_eq] at h
    exact (checked_eq_ok.mp h).1
  have hreordered : ∀ ds, s.decls.Perm ds →
      Schema.lower { s with decls := ds } name (Schema.enumNames { s with decls := ds }) .nested =
        .ok (.ofParts name s.edition (ds.map (Decl.part s.enumNames))) := by
    intro ds hperm
    have hnames : ∀ n, n ∈ Schema.enumNames { s with decls := ds } ↔ n ∈ s.enumNames :=
      fun n => (hperm.flatMap_right Decl.enumNames).mem_iff.symm
    rw [lower_eq, faults_perm hperm hfaults, checked_nil, Lowering.grown_nested,
      Decl.part_congr hnames]
  exact ⟨renders_lower h, hreordered s.decls (.refl _), hreordered⟩

/-- An enum that is declared behind the field it types, and in a message inside that field's. -/
def spread : Schema where
  edition := "proto3"
  decls := [
    .importing ⟨"a", .reexport, 1⟩,
    .message "Job" 2 [
      .field ⟨some .repeated, .named ["Inner", "Status"], "past", 1, 3⟩,
      .field ⟨none, .named ["Status", "Inner"], "inner", 2, 4⟩,
      .message "Inner" 5 [.enum ⟨"Status", 6, [⟨"OK", 0, 7⟩]⟩]],
    .enum ⟨"Mode", 8, []⟩,
    .importing ⟨"b", .weak, 9⟩,
    .message "Run" 10 [.field ⟨none, .named ["Status"], "last", 1, 11⟩]]

/-- The declarations from the last to the first come to the same parts from the last to the
first. -/
theorem spread_lower_ignores_order :
    let job : Message := ⟨"Job", [⟨"past", 1, .enum, some "Inner.Status", .repeated⟩,
      ⟨"inner", 2, .message, some "Status.Inner", .optional⟩],
      [⟨"Inner", [], [], [⟨"Status", [⟨"OK", 0⟩]⟩]⟩], []⟩
    let run : Message := ⟨"Run", [⟨"last", 1, .enum, some "Status", .optional⟩], [], []⟩
    let file : File := ⟨"f", "proto3", none, ["a", "b"], [0], [1], [job, run], [⟨"Mode", []⟩]⟩
    let reversed : Schema := { spread with decls := spread.decls.reverse }
    spread.lower "f" spread.enumNames .nested = .ok file ∧
    List.Forall₂ spread.Renders (Member.bodiesIn spread.members)
      (Message.flattenedIn file.messages) ∧
    reversed.lower "f" reversed.enumNames .nested =
      .ok ⟨"f", "proto3", none, ["b", "a"], [1], [0], [run, job], [⟨"Mode", []⟩]⟩ := by
  intro job run file reversed
  have hfile : spread.lower "f" spread.enumNames .nested = .ok file :=
    Fallible.toOption_eq_some.mp (by decide +kernel)
  obtain ⟨hrenders, -, hreordered⟩ := Schema.lower_ignores_order hfile
  refine ⟨hfile, hrenders, ?_⟩
  exact (hreordered _ (List.reverse_perm _).symm).trans (congrArg Except.ok (by decide +kernel))

end Schemata
