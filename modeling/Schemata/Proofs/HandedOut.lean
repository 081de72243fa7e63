/-
The sets a caller is handed.

A caller gets sets from compiling, from a batch and from JSON, and all of them are
valid: a compiled file has proper fields, adding it to a set keeps the names apart, and
JSON is checked.  So the JSON text of such a set is read back whenever its depth is
allowed.  The depth is the one thing nothing looks after.  A schema may nest its messages
as deep as it likes, each of them costs two levels of JSON, and sixty-two are too many.
-/
import Schemata.Batch
import Schemata.Proofs.Descriptor.RoundTrip
import Schemata.Proofs.Loading.Run
import Schemata.Proofs.Lowering.Fields

namespace Schemata

open Fallible

/-! ### Loading keeps a set valid -/

theorem valid_loadOver (known : DescriptorSet) (resolver : Resolver) (nesting : Nesting)
    (name : String) (bytes : ByteArray) {set : DescriptorSet} (h : set.Valid) :
    (loadOver known resolver nesting name bytes set).progress.set.Valid :=
  Loading.loadOver_preserves known resolver nesting name bytes
    (fun hc _ hset => hset.insert (proper_of_compileBytes hc)) h

theorem valid_of_compile {resolver : Resolver} {nesting : Nesting} {name : String}
    {bytes : ByteArray} {s : DescriptorSet}
    (h : (compile resolver nesting name bytes).result = .ok s) : s.Valid := by
  obtain ⟨_, -, rfl⟩ := map_eq_ok.mp h
  exact valid_loadOver .empty resolver nesting name bytes DescriptorSet.valid_empty

namespace Batch

variable {ctx : Context}

theorem valid_load {set set' : DescriptorSet} {job : Job} {bytes : ByteArray} (h : set.Valid)
    (hload : load ctx set job bytes = .ok set') : set'.Valid := by
  rw [load] at hload
  split at hload
  · obtain ⟨_, -, rfl⟩ := map_eq_ok.mp hload
    exact valid_loadOver _ _ _ _ _ h
  · obtain ⟨_, -, rfl⟩ := map_eq_ok.mp hload
    exact h.merge (valid_loadOver _ _ _ _ _ DescriptorSet.valid_empty)

theorem valid_perform {set set' : DescriptorSet} {job : Job} (h : set.Valid)
    (hperform : perform ctx set job = .ok set') : set'.Valid := by
  rw [perform] at hperform
  split_ifs at hperform
  · cases hperform
    exact h
  · obtain ⟨bytes, -, hload⟩ := bind_eq_ok.mp hperform
    exact valid_load h hload

theorem valid_fail {r r' : BatchReport} {e : Error} (h : r.set.Valid)
    (hfail : fail ctx r e = .ok r') : r'.set.Valid := by
  rw [fail] at hfail
  split at hfail
  · cases hfail
  · cases hfail
    exact h

theorem valid_runJob {r r' : BatchReport} {job : Job} (h : r.set.Valid)
    (hrun : runJob ctx r job = .ok r') : r'.set.Valid := by
  rw [runJob] at hrun
  split_ifs at hrun
  · cases hrun
    exact h
  · split at hrun
    · rename_i hperform
      cases hrun
      exact valid_perform h hperform
    · exact valid_fail h hrun

theorem valid_runRoot {r r' : BatchReport} {root : Path} (h : r.set.Valid)
    (hrun : runRoot ctx r root = .ok r') : r'.set.Valid := by
  rw [runRoot] at hrun
  split_ifs at hrun
  · cases hrun
    exact h
  · split at hrun
    · exact foldlM_preserves (fun hr hjob => valid_runJob hr hjob) h hrun
    · exact valid_fail h hrun

end Batch

theorem valid_of_compileAll {source : Source} {config : Config} {roots : List Path}
    {report : BatchReport} (h : compileAll source config roots = .ok report) :
    report.set.Valid := by
  obtain ⟨_, -, hroots⟩ := bind_eq_ok.mp h
  exact foldlM_preserves (fun hr hroot => Batch.valid_runRoot hr hroot)
    DescriptorSet.valid_empty hroots

namespace DescriptorSet

theorem valid_of_ofJsonText {text : String} {s : DescriptorSet} (h : ofJsonText text = .ok s) :
    s.Valid := by
  rw [ofJsonText] at h
  split at h
  · cases h
  · split at h
    · cases h
    · rename_i hoffence
      cases h
      exact (offence?_eq_none _).mp hoffence

/-- A caller can be handed the set. -/
inductive HandedOut : DescriptorSet → Prop
  | compiled {resolver : Resolver} {nesting : Nesting} {name : String} {bytes : ByteArray}
      {s : DescriptorSet} (h : (compile resolver nesting name bytes).result = .ok s) : HandedOut s
  | batch {source : Source} {config : Config} {roots : List Path} {report : BatchReport}
      (h : compileAll source config roots = .ok report) : HandedOut report.set
  | decoded {text : String} {s : DescriptorSet} (h : ofJsonText text = .ok s) : HandedOut s

theorem HandedOut.valid {s : DescriptorSet} (h : s.HandedOut) : s.Valid := by
  cases h with
  | compiled h => exact valid_of_compile h
  | batch h => exact valid_of_compileAll h
  | decoded h => exact valid_of_ofJsonText h

/-- **A set that is handed out is read back from its own text exactly if the depth of its
JSON value is allowed.** -/
theorem handedOut_round_trip {s : DescriptorSet} (h : s.HandedOut) :
    ofJsonText s.toJsonText =
      if s.toJson.depth ≤ Descriptor.maxDepth then .ok s else .error .malformed :=
  ofJsonText_of_valid h.valid

end DescriptorSet

/-! ### Nested messages

A text that declares a message, another one inside it, and so on.  Its descriptor is
worked out from the characters, without a detour over their bytes.
-/

/-- A message with so many others inside it, each in the one before. -/
def nestedMessage : Nat → Descriptor.Message
  | 0 => .empty "M"
  | depth + 1 => { Descriptor.Message.empty "M" with messages := [nestedMessage depth] }

/-- The file that declares such a message. -/
def nestedFile (depth : Nat) : Descriptor.File :=
  { Descriptor.File.empty "t.proto" "proto3" with messages := [nestedMessage depth] }

/-- The characters of its text. -/
def nestedChars (depth : Nat) : List Char :=
  "syntax=\"proto3\";".toList ++
    (List.replicate (depth + 1) "message M\x7b".toList).flatten ++
      List.replicate (depth + 1) '\x7d'

/-- The bytes of its text. -/
def nestedBytes (depth : Nat) : ByteArray := (String.ofList (nestedChars depth)).toUTF8

/-- A text given by its characters is compiled from them. -/
theorem compileText_ofList (name : String) (cs : List Char) (nesting : Nesting) :
    compileText name (String.ofList cs) nesting = (do
      let tokens ← (Lexer.lexFrom .start cs).mapError (Unlexable.error name)
      let schema ← schemaOf name tokens
      let file ← schema.lower name schema.enumNames nesting
      return { schema, file }) := by
  rw [compileText, tokensOf, lex, String.toList_ofList]

theorem compile_nestedBytes {depth : Nat}
    (h : (compileText "t.proto" (String.ofList (nestedChars depth)) .nested).toOption.map
      (fun c => (c.schema.imports, c.file)) = some ([], nestedFile depth)) :
    (compile .none .nested "t.proto" (nestedBytes depth)).result =
      .ok ⟨[nestedFile depth]⟩ := by
  obtain ⟨c, hc, heq⟩ := Option.map_eq_some_iff.mp h
  obtain ⟨himports, hfile⟩ := Prod.mk.inj heq
  rw [← hfile]
  refine Loading.compile_of_no_imports (by decide) ?_ himports
  rw [compileBytes, nestedBytes, fromUTF8?_toUTF8]
  exact toOption_eq_some.mp hc

namespace DescriptorSet

/-- Sixty-one messages, each inside the one before, are read back. -/
theorem nested_round_trip :
    (compile .none .nested "t.proto" (nestedBytes 60)).result = .ok ⟨[nestedFile 60]⟩ ∧
      ofJsonText (toJsonText ⟨[nestedFile 60]⟩) = .ok ⟨[nestedFile 60]⟩ := by
  have hcompile : (compile .none .nested "t.proto" (nestedBytes 60)).result =
      .ok ⟨[nestedFile 60]⟩ := by
    refine compile_nestedBytes ?_
    rw [compileText_ofList]
    decide +kernel
  exact ⟨hcompile,
    (handedOut_round_trip (.compiled hcompile)).trans (if_pos (by decide +kernel))⟩

/-- With one message more the text is still compiled, but what it is compiled to is not
read back. -/
theorem nested_no_round_trip :
    (compile .none .nested "t.proto" (nestedBytes 61)).result = .ok ⟨[nestedFile 61]⟩ ∧
      ofJsonText (toJsonText ⟨[nestedFile 61]⟩) = .error .malformed := by
  have hcompile : (compile .none .nested "t.proto" (nestedBytes 61)).result =
      .ok ⟨[nestedFile 61]⟩ := by
    refine compile_nestedBytes ?_
    rw [compileText_ofList]
    decide +kernel
  exact ⟨hcompile,
    (ofJsonText_of_valid (valid_of_compile hcompile)).trans (if_neg (by decide +kernel))⟩

end DescriptorSet

end Schemata
