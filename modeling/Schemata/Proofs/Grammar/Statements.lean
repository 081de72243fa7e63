/-
The statements of a text.

A text that is read has one derivation tree, and below its head line the tree is a list of
statements.  What the text declares comes from them one by one, so an import or a package of
the declaration tree can be followed back to the statement that makes it, and so can its line.
-/
import Schemata.Proofs.Grammar.Files
import Schemata.Proofs.Lowering.Structure

namespace Schemata

open Production

namespace Grammar

/-- The statements of a text, in order. -/
def statementsOf (d : file.Tree) : List statement.Tree := d.1.2.2.2.2

theorem decls_value (d : file.Tree) :
    (file.value d).decls = (statementsOf d).flatMap statement.value :=
  (List.flatMap_def ..).symm

/-- The tokens of a statement are among those of the text. -/
theorem tokens_subset_of_mem_statementsOf {d : file.Tree} {s : statement.Tree}
    (h : s ∈ statementsOf d) : statement.tokens s ⊆ file.tokens d := by
  intro t ht
  have hstatements : t ∈ statements.tokens d.1.2.2.2.2 := List.mem_flatMap.mpr ⟨s, h, ht⟩
  have hschema : t ∈ schema.tokens d.1 :=
    List.mem_append_right _ (List.mem_append_right _ (List.mem_append_right _
      (List.mem_append_right _ hstatements)))
  exact List.mem_append_left _ hschema

/-- What is declared is declared by a statement. -/
theorem exists_statement {d : file.Tree} {decl : Decl} (h : decl ∈ (file.value d).decls) :
    ∃ kind e, ⟨kind, e⟩ ∈ statementsOf d ∧ decl ∈ statement.value ⟨kind, e⟩ := by
  rw [decls_value] at h
  obtain ⟨⟨kind, e⟩, hs, hdecl⟩ := List.mem_flatMap.mp h
  exact ⟨kind, e, hs, hdecl⟩

/-- An import of the declaration tree is the value of an import statement. -/
theorem exists_importStatement {d : file.Tree} {i : ImportDecl}
    (h : i ∈ (file.value d).imports) :
    ∃ e : importStatement.Tree, ⟨.importing, e⟩ ∈ statementsOf d ∧ importStatement.value e = i := by
  obtain ⟨decl, hdecl, hi⟩ := List.mem_filterMap.mp h
  obtain ⟨kind, e, hs, hdecl⟩ := exists_statement hdecl
  cases decl with
  | importing j =>
      obtain rfl := Option.some.inj hi
      cases kind with
      | importing =>
          cases List.mem_singleton.mp hdecl
          exact ⟨e, hs, rfl⟩
      | option => cases hdecl
      | empty => cases hdecl
      | _ => cases List.mem_singleton.mp hdecl
  | _ => cases hi

/-- The line of a package declaration is that on which a package statement begins. -/
theorem exists_packageStatement {d : file.Tree} {line : Nat}
    (h : line ∈ (file.value d).packageLines) :
    ∃ e : packageStatement.Tree, ⟨.package, e⟩ ∈ statementsOf d ∧
      firstLine (packageStatement.tokens e) = line := by
  obtain ⟨decl, hdecl, hline⟩ := List.mem_filterMap.mp h
  obtain ⟨kind, e, hs, hdecl⟩ := exists_statement hdecl
  cases decl with
  | package name found =>
      obtain rfl := Option.some.inj hline
      cases kind with
      | package =>
          cases List.mem_singleton.mp hdecl
          exact ⟨e, hs, rfl⟩
      | option => cases hdecl
      | empty => cases hdecl
      | _ => cases List.mem_singleton.mp hdecl
  | _ => cases hline

/-- A statement begins on the line of a token of the text. -/
theorem exists_mem_firstLine {d : file.Tree} {s : statement.Tree} (h : s ∈ statementsOf d) :
    ∃ t ∈ file.tokens d, firstLine (statement.tokens s) = t.place.line := by
  obtain ⟨t, ts, htokens, -⟩ := Reads.statement_goes_on s
  refine ⟨t, tokens_subset_of_mem_statementsOf h ?_, ?_⟩
  · rw [htokens]
    exact List.mem_cons_self
  · rw [htokens]
    rfl

end Grammar

/-- What is read from a text has a derivation tree. -/
theorem exists_tree_of_lex {text : String} {tokens : List Located} {s : Schema}
    (htokens : lex text = .ok tokens) (hschema : Schema.read tokens = .ok s) :
    ∃ d, Grammar.file.tokens d = tokens ∧ Grammar.file.value d = s := by
  exact exists_tree_of_read (lexed_lex htokens).terminated hschema

end Schemata
