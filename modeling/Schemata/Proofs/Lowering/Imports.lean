/-
What lowering makes of imports.

A descriptor's name is the one it is lowered under and its dependencies are the paths
its tree imports, in order.
-/
import Schemata.Loading
import Schemata.Proofs.Lowering.Structure

namespace Schemata

open Fallible Descriptor

/-- A descriptor has the name it is lowered under and depends on what its tree imports. -/
theorem Schema.lower_imports {s : Schema} {name : String} {enumNames : List String}
    {nesting : Nesting} {file : File} (h : s.lower name enumNames nesting = .ok file) :
    file.name = name ∧ file.dependencies = s.imports.map (·.path) := by
  rw [lower_eq] at h
  obtain ⟨-, rfl⟩ := checked_eq_ok.mp h
  exact ⟨rfl, rfl⟩

/-- What compiles has passed every stage. -/
theorem compileBytes_eq_ok {name : String} {bytes : ByteArray} {nesting : Nesting}
    {c : Compiled} (h : compileBytes name bytes nesting = .ok c) :
    ∃ text tokens, String.fromUTF8? bytes = some text ∧ lex text = .ok tokens ∧
      Schema.read tokens = .ok c.schema ∧
      c.schema.lower name c.schema.enumNames nesting = .ok c.file := by
  unfold compileBytes at h
  split at h
  · cases h
  · rename_i text htext
    simp only [compileText, tokensOf, schemaOf, bind_eq_ok, mapError_eq_ok] at h
    obtain ⟨tokens, htokens, schema, hschema, file, hfile, h⟩ := h
    cases h
    exact ⟨text, tokens, htext, htokens, hschema, hfile⟩

/-- What passes the stages before the last is lowered. -/
theorem compileBytes_of_read {bytes : ByteArray} {text : String} {tokens : List Located}
    {s : Schema} (htext : String.fromUTF8? bytes = some text) (htokens : lex text = .ok tokens)
    (hschema : Schema.read tokens = .ok s) (name : String) (nesting : Nesting) :
    compileBytes name bytes nesting =
      (do return ⟨s, ← s.lower name s.enumNames nesting⟩) := by
  simp [compileBytes, htext, compileText, tokensOf, htokens, schemaOf, hschema, bind, Except.bind]

/-- What reading refuses does not compile. -/
theorem compileBytes_of_read_error {bytes : ByteArray} {text : String} {tokens : List Located}
    {r : Refusal} (htext : String.fromUTF8? bytes = some text) (htokens : lex text = .ok tokens)
    (hrefused : Schema.read tokens = .error r) (name : String) (nesting : Nesting) :
    compileBytes name bytes nesting = .error (.grammar name r.line r.message) := by
  simp [compileBytes, htext, compileText, tokensOf, htokens, schemaOf, hrefused, bind, Except.bind,
    Refusal.error]

theorem fromUTF8?_toUTF8 (text : String) : String.fromUTF8? text.toUTF8 = some text := by
  have hvalid : text.toUTF8.IsValidUTF8 := text.isValidUTF8
  rw [String.fromUTF8?, dif_pos hvalid]
  rfl

/-- A text is compiled from its bytes. -/
theorem compileBytes_toUTF8 (name text : String) (nesting : Nesting) :
    compileBytes name text.toUTF8 nesting = compileText name text nesting := by
  rw [compileBytes, fromUTF8?_toUTF8]

/-- A compiled file goes by the name it is compiled under. -/
theorem name_of_compileBytes {name : String} {bytes : ByteArray} {nesting : Nesting}
    {c : Compiled} (h : compileBytes name bytes nesting = .ok c) : c.file.name = name := by
  obtain ⟨_, _, _, _, _, hlower⟩ := compileBytes_eq_ok h
  exact (Schema.lower_imports hlower).1

/-- A compiled file depends on the paths its tree imports. -/
theorem dependencies_of_compileBytes {name : String} {bytes : ByteArray} {nesting : Nesting}
    {c : Compiled} (h : compileBytes name bytes nesting = .ok c) :
    c.file.dependencies = c.schema.imports.map (·.path) := by
  obtain ⟨_, _, _, _, _, hlower⟩ := compileBytes_eq_ok h
  exact (Schema.lower_imports hlower).2

end Schemata
