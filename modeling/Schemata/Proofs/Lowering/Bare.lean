/-
What lowering does not look at.

A tree carries the lines of its declarations for the sake of errors alone.  Without them it
is lowered to the same descriptor, if it is lowered at all: no line is part of a descriptor,
and whether something is wrong with a tree does not depend on where it stands.
-/
import Schemata.Proofs.Lowering.Structure

namespace Schemata

open Fallible Descriptor

/-! ### Trees without lines -/

def FieldDecl.bare (f : FieldDecl) : FieldDecl := { f with line := 0 }

def ValueDecl.bare (v : ValueDecl) : ValueDecl := { v with line := 0 }

def EnumDecl.bare (e : EnumDecl) : EnumDecl :=
  { e with line := 0, values := e.values.map ValueDecl.bare }

def ImportDecl.bare (i : ImportDecl) : ImportDecl := { i with line := 0 }

mutual

def Member.bare : Member → Member
  | .field f => .field f.bare
  | .enum e => .enum e.bare
  | .message name _ body => .message name 0 (Member.bareIn body)

def Member.bareIn : List Member → List Member
  | [] => []
  | m :: ms => m.bare :: Member.bareIn ms

end

theorem Member.bareIn_eq_map (ms : List Member) : bareIn ms = ms.map bare := by
  induction ms with
  | nil => rw [bareIn, List.map_nil]
  | cons m ms ih => rw [bareIn, ih, List.map_cons]

def Decl.bare : Decl → Decl
  | .importing i => .importing i.bare
  | .package name _ => .package name 0
  | .enum e => .enum e.bare
  | .message name _ body => .message name 0 (Member.bareIn body)

def Schema.bare (s : Schema) : Schema := { s with decls := s.decls.map Decl.bare }

/-! ### Lowering without lines -/

theorem EnumDecl.lowered_bare (e : EnumDecl) : e.bare.lowered = e.lowered := by
  simp [lowered, bare, ValueDecl.bare]

mutual

theorem Lowering.contents_bare (nesting : Nesting) (enumNames : List String) (m : Member) :
    contents nesting enumNames m.bare = contents nesting enumNames m := by
  cases m with
  | field f =>
      rw [Member.bare, contents, contents]
      rfl
  | enum e => rw [Member.bare, contents, contents, EnumDecl.lowered_bare]
  | message name line body =>
      rw [Member.bare, contents, contents, contentsIn_bareIn nesting enumNames body]

theorem Lowering.contentsIn_bareIn (nesting : Nesting) (enumNames : List String)
    (ms : List Member) :
    contentsIn nesting enumNames (Member.bareIn ms) = contentsIn nesting enumNames ms := by
  cases ms with
  | nil => rw [Member.bareIn]
  | cons m ms =>
      rw [Member.bareIn, contentsIn, contentsIn, contents_bare nesting enumNames m,
        contentsIn_bareIn nesting enumNames ms]

end

mutual

theorem Member.fields_bare (m : Member) : m.bare.fields = m.fields.map FieldDecl.bare := by
  cases m with
  | field f => rw [bare, fields, fields, List.map_singleton]
  | enum e => rw [bare, fields, fields, List.map_nil]
  | message name line body => rw [bare, fields, fields, fieldsIn_bareIn body]

theorem Member.fieldsIn_bareIn (ms : List Member) :
    fieldsIn (bareIn ms) = (fieldsIn ms).map FieldDecl.bare := by
  cases ms with
  | nil => rw [bareIn, fieldsIn, List.map_nil]
  | cons m ms =>
      rw [bareIn, fieldsIn, fieldsIn, fields_bare m, fieldsIn_bareIn ms, List.map_append]

end

mutual

theorem Member.enumNames_bare (m : Member) : m.bare.enumNames = m.enumNames := by
  cases m with
  | field f => rw [bare, enumNames, enumNames]
  | enum e =>
      rw [bare, enumNames, enumNames]
      rfl
  | message name line body => rw [bare, enumNames, enumNames, enumNamesIn_bareIn body]

theorem Member.enumNamesIn_bareIn (ms : List Member) :
    enumNamesIn (bareIn ms) = enumNamesIn ms := by
  cases ms with
  | nil => rw [bareIn]
  | cons m ms =>
      rw [bareIn, enumNamesIn, enumNamesIn, enumNames_bare m, enumNamesIn_bareIn ms]

end

namespace Decl

theorem member?_bare (d : Decl) : d.bare.member? = d.member?.map Member.bare := by
  cases d with
  | importing i => rfl
  | package name line => rfl
  | enum e => simp [bare, member?, Member.bare]
  | message name line body => simp [bare, member?, Member.bare]

theorem package?_bare (d : Decl) : d.bare.package? = d.package? := by
  cases d <;> rfl

theorem import?_bare (d : Decl) : d.bare.import? = d.import?.map ImportDecl.bare := by
  cases d <;> rfl

theorem filterMap_package?_bare (ds : List Decl) :
    (ds.map bare).filterMap package? = ds.filterMap package? := by
  rw [List.filterMap_map]
  exact congrArg (List.filterMap · ds) (funext package?_bare)

theorem filterMap_import?_bare (ds : List Decl) :
    (ds.map bare).filterMap import? = (ds.filterMap import?).map ImportDecl.bare := by
  rw [List.filterMap_map, List.map_filterMap]
  exact congrArg (List.filterMap · ds) (funext import?_bare)

theorem filterMap_member?_bare (ds : List Decl) :
    (ds.map bare).filterMap member? = Member.bareIn (ds.filterMap member?) := by
  rw [Member.bareIn_eq_map, List.filterMap_map, List.map_filterMap]
  exact congrArg (List.filterMap · ds) (funext member?_bare)

theorem enumNames_bare (d : Decl) : d.bare.enumNames = d.enumNames := by
  cases d with
  | message name line body => exact Member.enumNamesIn_bareIn body
  | _ => rfl

end Decl

theorem Lowering.placesFrom_bare (start : Nat) (kind : ImportKind) (is : List ImportDecl) :
    placesFrom start kind (is.map ImportDecl.bare) = placesFrom start kind is := by
  rw [placesFrom, List.zipIdx_map, List.filter_map, List.map_map]
  rfl

theorem Lowering.grown_bare (ctx : Context) (f : File) (ds : List Decl) :
    grown ctx f (ds.map Decl.bare) = grown ctx f ds := by
  have hpaths : ∀ is : List ImportDecl,
      (is.map ImportDecl.bare).map (·.path) = is.map (·.path) := by
    simp [ImportDecl.bare]
  simp only [grown, Decl.filterMap_import?_bare, Decl.filterMap_member?_bare,
    Decl.filterMap_package?_bare, hpaths, placesFrom_bare, contentsIn_bareIn]

namespace Schema

theorem enumNames_bare (s : Schema) : s.bare.enumNames = s.enumNames := by
  simp [enumNames, bare, List.flatMap_map, Decl.enumNames_bare]

/-- Nothing is wrong with a tree without its lines if nothing is wrong with it. -/
theorem faults_bare (s : Schema) (file : String) :
    s.bare.faults file = [] ↔ s.faults file = [] := by
  have hpackages : s.bare.packages = s.packages := Decl.filterMap_package?_bare s.decls
  have hmembers : s.bare.members = Member.bareIn s.members := Decl.filterMap_member?_bare s.decls
  have hfields : s.bare.fields = s.fields.map FieldDecl.bare := by
    rw [fields, hmembers, Member.fieldsIn_bareIn, fields]
  rw [faults_eq_nil, faults_eq_nil, hpackages, hfields, List.forall_mem_map]
  rfl

/-- **A tree is lowered to the same descriptor without its lines.** -/
theorem lower_bare (s : Schema) (name : String) (enumNames : List String) (nesting : Nesting) :
    (s.bare.lower name enumNames nesting).toOption =
      (s.lower name enumNames nesting).toOption := by
  have hgrown := Lowering.grown_bare ⟨name, enumNames, nesting⟩ (.empty name s.edition) s.decls
  rw [lower_eq, lower_eq, toOption_checked, toOption_checked, ← hgrown]
  simp only [s.faults_bare name]
  rfl

end Schema

end Schemata
