/-
A text imports no more files than it has bytes.

Every import is a statement, every statement takes a token, every token but the last a
character, and every character a byte.  The bound is a coarse one; all that matters is
that it can be told from a file without reading it.
-/
import Mathlib.Data.List.Basic
import Schemata.Path.Segments
import Schemata.Proofs.Lowering.Imports
import Schemata.Proofs.Reader

namespace Schemata

/-! ### Tokens of a text -/

theorem Lexer.length_lexFrom {p : Text.Position} {cs : List Char} {ts : List Located}
    (h : lexFrom p cs = .ok ts) : ts.length ≤ cs.length + 1 := by
  fun_induction lexFrom p cs generalizing ts with
  | case1 =>
      cases h
      simp
  | case2 => cases h
  | case3 p c cs piece hscan ih =>
      obtain ⟨later, hlater, h⟩ := Fallible.bind_eq_ok.mp h
      cases h
      have hrest := scan_shorter hscan
      have htokens := ih hlater
      have hown : (piece.located p).length ≤ 1 := by
        rw [Piece.located, List.length_map]
        cases piece.token? <;> simp
      rw [List.length_append]
      omega

/-! ### Declarations of a token list -/

namespace Reader

/-- Items that give at most one value each take a token for each value. -/
theorem length_manyUntil {α : Type} {ends : Token → Bool} {item : Reader (List α)}
    {progress : item.Takes 1}
    (hitem : ∀ {ts as rest}, item ts = .ok (as, rest) → as.length ≤ 1)
    {ts rest : List Located} {as : List α}
    (h : manyUntil ends item progress ts = .ok (as, rest)) :
    as.length + rest.length ≤ ts.length := by
  fun_induction manyUntil ends item progress ts generalizing as with
  | case1 =>
      cases h
      simp
  | case2 => cases h
  | case3 ts _ now mid hi ih =>
      obtain ⟨⟨later, last⟩, hlater, h⟩ := Fallible.map_eq_ok.mp h
      cases h
      have hfirst := progress.shorter hi
      have hnow := hitem hi
      have htail := ih hlater
      rw [List.length_append]
      omega

/-- A statement gives at most one declaration. -/
theorem length_statement {ts rest : List Located} {ds : List Decl}
    (h : statement ts = .ok (ds, rest)) : ds.length ≤ 1 := by
  rw [statement, bind_eq_ok] at h
  obtain ⟨t, mid, -, h⟩ := h
  -- Six of the seven kinds of statement answer with a list that is written out.
  split at h
  case h_7 => exact absurd h refuse_ne_ok
  all_goals
    obtain ⟨_, _, _, h⟩ := bind_eq_ok.mp h
    obtain ⟨rfl, -⟩ := pure_eq_ok.mp h
    simp

/-- A tree has fewer declarations than there are tokens. -/
theorem length_schema {ts rest : List Located} {s : Schema} (h : schema ts = .ok (s, rest)) :
    s.decls.length < ts.length := by
  obtain ⟨_, m₁, h₁, h⟩ := bind_eq_ok.mp h
  obtain ⟨_, m₂, h₂, h⟩ := bind_eq_ok.mp h
  obtain ⟨_, m₃, h₃, h⟩ := bind_eq_ok.mp h
  obtain ⟨_, m₄, h₄, h⟩ := bind_eq_ok.mp h
  obtain ⟨decls, m₅, h₅, h⟩ := bind_eq_ok.mp h
  obtain ⟨rfl, -⟩ := pure_eq_ok.mp h
  have hhead := (takes_expect_keyword .edition).shorter h₁
  have hequals := (takes_expect_punct .equals).shorter h₂
  have hedition := takes_string.shorter h₃
  have hsemicolon := (takes_expect_punct .semicolon).shorter h₄
  have hdecls := length_manyUntil length_statement h₅
  show decls.length < ts.length
  omega

end Reader

theorem Schema.length_read {ts : List Located} {s : Schema} (h : Schema.read ts = .ok s) :
    s.decls.length < ts.length := by
  unfold Schema.read at h
  split at h
  · cases h
  · split at h
    · obtain ⟨⟨s', rest⟩, hs, rfl⟩ := Fallible.map_eq_ok.mp h
      exact Reader.length_schema hs
    · cases h

/-! ### Imports of a file -/

/-- Characters take at least a byte each. -/
theorem length_le_size_utf8Encode (cs : List Char) : cs.length ≤ cs.utf8Encode.size := by
  induction cs with
  | nil => simp
  | cons c cs ih =>
      have hne : String.utf8EncodeChar c ≠ [] := String.utf8EncodeChar_ne_nil
      have hpos := List.length_pos_iff.mpr hne
      rw [List.utf8Encode_cons, List.utf8Encode_singleton, ByteArray.size_append,
        List.size_toByteArray, List.length_cons]
      omega

/-- A text has no more characters than bytes. -/
theorem length_le_size {bytes : ByteArray} {text : String}
    (h : String.fromUTF8? bytes = some text) : text.toList.length ≤ bytes.size := by
  unfold String.fromUTF8? at h
  split at h
  · rename_i hvalid
    obtain rfl := Option.some.inj h
    have hle := length_le_size_utf8Encode (String.fromUTF8 bytes hvalid).toList
    rw [String.utf8Encode_toList] at hle
    exact hle
  · cases h

/-- The tree of a file, whatever the file is called. -/
def schemaOfBytes? (bytes : ByteArray) : Option Schema := do
  let text ← String.fromUTF8? bytes
  let tokens ← (lex text).toOption
  (Schema.read tokens).toOption

/-- The keys of the imports of a file. -/
def keysOfBytes (bytes : ByteArray) : List String :=
  match schemaOfBytes? bytes with
  | some s => s.imports.map fun i => importKey i.path
  | none => []

theorem schemaOfBytes?_of_compileBytes {name : String} {bytes : ByteArray} {nesting : Nesting}
    {c : Compiled} (h : compileBytes name bytes nesting = .ok c) :
    schemaOfBytes? bytes = some c.schema := by
  obtain ⟨text, tokens, htext, htokens, hschema, -⟩ := compileBytes_eq_ok h
  simp [schemaOfBytes?, htext, htokens, hschema, Except.toOption]

/-- **A file imports no more than it has bytes.** -/
theorem length_keysOfBytes (bytes : ByteArray) : (keysOfBytes bytes).length ≤ bytes.size := by
  unfold keysOfBytes
  split
  · rename_i s hs
    simp only [schemaOfBytes?, Option.bind_eq_bind, Option.bind_eq_some_iff,
      Fallible.toOption_eq_some] at hs
    obtain ⟨text, htext, tokens, htokens, hschema⟩ := hs
    have himports : s.imports.length ≤ s.decls.length := List.length_filterMap_le _ _
    have hdecls := Schema.length_read hschema
    have hlex := Lexer.length_lexFrom htokens
    have hbytes := length_le_size htext
    rw [List.length_map]
    omega
  · simp

end Schemata
