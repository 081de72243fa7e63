/-
Where errors point.

An error of a load is made in one place: where a file does not compile on its own, or where the
file that an import of a compiled file names is not found.  Either way the file it names is one
whose content was at hand, given as the root or answered by the resolver, and the line it names
is a line of that content, because it is the line of a token and tokens stand in the text.
Below, the first half is read off the rules of a run, the second off the stages of compiling.
-/
import Schemata.Proofs.Compiled
import Schemata.Proofs.Grammar.Refusals
import Schemata.Proofs.Grammar.Statements
import Schemata.Proofs.Loading.Asked
import Schemata.Proofs.Token.Unlexable

namespace Schemata

/-! ### Lines of a content -/

/-- The content is a text with a line of this number.  Lines are counted from one, and each
line feed begins another. -/
def HasLine (content : ByteArray) (line : Nat) : Prop :=
  ∃ text, String.fromUTF8? content = some text ∧ 1 ≤ line ∧ line ≤ 1 + text.toList.count '\n'

/-- The content is a text with an import statement that begins on the line and writes the
path. -/
def ImportsOn (content : ByteArray) (line : Nat) (path : String) : Prop :=
  ∃ text d e, String.fromUTF8? content = some text ∧ lex text = .ok (Grammar.file.tokens d) ∧
    ⟨.importing, e⟩ ∈ Grammar.statementsOf d ∧
    Production.firstLine (Grammar.importStatement.tokens e) = line ∧
    (Grammar.importStatement.value e).path = path

section

open Lexer Text

variable {text : String} {tokens : List Located}

theorem line_behind {part : List Char} (h : part <+: text.toList) :
    1 ≤ (Position.behind part).line ∧ (Position.behind part).line ≤ 1 + text.toList.count '\n' :=
  ⟨Nat.le_add_right .., Nat.add_le_add_left (h.sublist.count_le _) 1⟩

/-- The tokens of a text stand on its lines. -/
theorem line_of_mem_lex (h : lex text = .ok tokens) {t : Located} (ht : t ∈ tokens) :
    1 ≤ t.place.line ∧ t.place.line ≤ 1 + text.toList.count '\n' := by
  obtain ⟨ss, -, htext, rfl⟩ := lex_eq_ok_iff.mp h
  rcases List.mem_append.mp ht with ht | ht
  · obtain ⟨part, hpart, hplace⟩ := exists_place_of_mem_lexemes ht
    rw [List.nil_append, htext] at hpart
    rw [hplace]
    exact line_behind hpart
  · obtain rfl := List.mem_singleton.mp ht
    exact line_behind List.prefix_rfl

/-- A character that cannot be lexed stands on a line of its text. -/
theorem line_of_lex_error {u : Unlexable} (h : lex text = .error u) :
    1 ≤ u.place.line ∧ u.place.line ≤ 1 + text.toList.count '\n' := by
  obtain ⟨ss, after, -, htext, hplace, -⟩ := exists_segmented_of_lexFrom_error h
  have hbehind : u.place = .behind (textOf ss) := hplace.trans (Position.after_behind [] _)
  rw [hbehind]
  exact line_behind ⟨u.char :: after, htext.symm⟩

end

/-! ### The file at fault -/

/-- The error points into the file, which holds the content: to a line of it, for an error
that has a line.  Nothing is found for an import if the file has the import there and its key
is the last that was asked for, with the fault that is reported. -/
inductive Blames (resolver : Resolver) (asked : List String) (file : String)
    (content : ByteArray) : Error → Prop
  | lex {line col : Nat} {char : Char} (hline : HasLine content line) :
      Blames resolver asked file content (.lex file line col char)
  | grammar {line : Nat} {fault : String} (hline : HasLine content line) :
      Blames resolver asked file content (.grammar file line fault)
  | importNotFound {line : Nat} {path : String} {fault : AccessFault}
      (hline : HasLine content line) (himport : ImportsOn content line path)
      (hlast : asked.getLast? = some (importKey path))
      (hfault : resolver.resolve (importKey path) = .error fault) :
      Blames resolver asked file content (.importNotFound file line path fault.message)
  | invalidUtf8 (h : String.fromUTF8? content = none) :
      Blames resolver asked file content (.invalidUtf8 file)

section

variable {resolver : Resolver} {asked : List String} {name text : String} {bytes : ByteArray}
  {nesting : Nesting} {tokens : List Located} {s : Schema}

/-- A statement begins on a line of the content. -/
theorem hasLine_of_statement {d : Grammar.file.Tree} {e : Grammar.statement.Tree}
    (htext : String.fromUTF8? bytes = some text) (hlex : lex text = .ok (Grammar.file.tokens d))
    (he : e ∈ Grammar.statementsOf d) :
    HasLine bytes (Production.firstLine (Grammar.statement.tokens e)) := by
  obtain ⟨t, ht, hline⟩ := Grammar.exists_mem_firstLine he
  rw [hline]
  exact ⟨text, htext, line_of_mem_lex hlex ht⟩

/-- A second package is complained about on a line of the content. -/
theorem blames_of_packageFault {e : Error} (htext : String.fromUTF8? bytes = some text)
    (hlex : lex text = .ok tokens) (hschema : Schema.read tokens = .ok s)
    (h : e ∈ packageFaults name s.packageLines) : Blames resolver asked name bytes e := by
  obtain ⟨d, rfl, rfl⟩ := exists_tree_of_lex hlex hschema
  cases hlines : (Grammar.file.value d).packageLines with
  | nil =>
      rw [hlines] at h
      cases h
  | cons first later =>
      rw [hlines] at h
      obtain ⟨line, hline, rfl⟩ := List.mem_map.mp h
      have hmem : line ∈ (Grammar.file.value d).packageLines :=
        hlines ▸ List.mem_cons_of_mem first hline
      obtain ⟨e, he, rfl⟩ := Grammar.exists_packageStatement hmem
      exact .grammar (hasLine_of_statement htext hlex he)

/-- **A file that does not compile on its own is to blame itself.** -/
theorem blames_of_compileBytes {e : Error} (h : compileBytes name bytes nesting = .error e) :
    Blames resolver asked name bytes e := by
  cases htext : String.fromUTF8? bytes with
  | none =>
      rw [compileBytes, htext] at h
      cases h
      exact .invalidUtf8 htext
  | some text =>
      cases hlex : lex text with
      | error u =>
          simp only [compileBytes, htext, compileText, tokensOf, hlex] at h
          cases h
          exact .lex ⟨text, htext, line_of_lex_error hlex⟩
      | ok tokens =>
          cases hschema : Schema.read tokens with
          | error r =>
              have hrefused := compileBytes_of_read_error htext hlex hschema name nesting
              cases h.symm.trans hrefused
              obtain ⟨used, t, rest, rfl, hline, -⟩ := read_deviates (lexed_lex hlex) hschema
              have ht : t ∈ used ++ t :: rest := by simp
              exact .grammar ⟨text, htext, hline ▸ line_of_mem_lex hlex ht⟩
          | ok s =>
              rw [compileBytes_eq_checked htext hlex hschema, Fallible.checked_eq_error] at h
              exact blames_of_packageFault htext hlex hschema (List.mem_of_mem_head? h)

/-- A compiled file has the imports of its tree, each on its line. -/
theorem imports_of_compileBytes {c : Compiled} {i : ImportDecl}
    (hc : compileBytes name bytes nesting = .ok c) (hi : i ∈ c.schema.imports) :
    HasLine bytes i.line ∧ ImportsOn bytes i.line i.path := by
  obtain ⟨text, tokens, htext, hlex, hschema, -⟩ := compileBytes_eq_ok hc
  obtain ⟨d, rfl, hd⟩ := exists_tree_of_lex hlex hschema
  rw [← hd] at hi
  obtain ⟨e, he, rfl⟩ := Grammar.exists_importStatement hi
  exact ⟨hasLine_of_statement htext hlex he, text, d, e, htext, hlex, he, rfl, rfl⟩

end

/-! ### Runs -/

namespace Loading

variable {g : ImportGraph} {known : DescriptorSet} {chain : List String} {p q : Progress}

/-- What was asked for stays so. -/
theorem Runs.asked_prefix {task : Task} {r : Except Error Unit}
    (h : Runs g known chain task p r q) : p.asked <+: q.asked := by
  induction h with
  | tooDeep => exact List.prefix_rfl
  | refused => exact List.prefix_rfl
  | stopped _ _ _ _ ih => exact ih
  | finished _ _ _ _ ih => exact ih
  | nil => exact List.prefix_rfl
  | cycle => exact List.prefix_rfl
  | skip _ _ _ ih => exact ih
  | missing => exact List.prefix_append _ _
  | failed _ ih => exact (List.prefix_append _ _).trans ih
  | loaded _ _ _ ihLoad ihLater => exact ((List.prefix_append _ _).trans ihLoad).trans ihLater

/-- The imports a task still has to follow are imports of its file. -/
def Task.Stands (g : ImportGraph) : Task → Prop
  | .file _ => True
  | .imports importer rest => ∃ c, g.compiled? importer = some c ∧ rest ⊆ c.schema.imports

/-- The error points into a file that is open while the task is at work or was asked for. -/
def PointsInto (g : ImportGraph) (opened asked : List String) (e : Error) : Prop :=
  ∃ file content, (file ∈ opened ∨ file ∈ asked) ∧ g.content? file = some content ∧
    Blames g.resolver asked file content e

/-- **A run that fails points into a file that was read**, unless it closes a cycle or goes too
deep. -/
theorem Runs.points_into {task : Task} {r : Except Error Unit} {e : Error}
    (h : Runs g known chain task p r q) (hr : r = .error e) (htask : task.Stands g) :
    PointsInto g (task.opened chain) q.asked e ∨ (∃ path chain, e = .importCycle path chain) ∨
      ∃ path, e = .importDepth path := by
  induction h with
  | nil => cases hr
  | finished => cases hr
  | tooDeep =>
      cases hr
      exact .inr (.inr ⟨_, rfl⟩)
  | @refused _ name _ bytes _ _ _ hbytes he =>
      cases hr
      exact .inl ⟨name, bytes, .inl (by simp [Task.opened]), hbytes, blames_of_compileBytes he⟩
  | stopped _ _ hc _ ih => exact ih hr ⟨_, hc, List.Subset.refl _⟩
  | cycle =>
      cases hr
      exact .inr (.inl ⟨_, _, rfl⟩)
  | skip _ _ _ ih =>
      obtain ⟨c, hc, hrest⟩ := htask
      exact ih hr ⟨c, hc, fun i hi => hrest (List.mem_cons_of_mem _ hi)⟩
  | @missing _ importer _ _ _ _ hmeets _ _ hfault =>
      cases hr
      obtain ⟨c, hc, hrest⟩ := htask
      obtain ⟨bytes, hbytes, hcompile⟩ := ImportGraph.compiled?_eq_some.mp hc
      obtain ⟨hline, himport⟩ := imports_of_compileBytes hcompile (hrest List.mem_cons_self)
      refine .inl ⟨importer, bytes, .inl (List.mem_of_getLast? hmeets.last), hbytes, ?_⟩
      exact .importNotFound hline himport (by simp [Progress.ask]) hfault
  | @failed chain importer i is p q e hload ih =>
      refine (ih hr trivial).imp_left ?_
      rintro ⟨file, content, hfile, hcontent, hblames⟩
      refine ⟨file, content, ?_, hcontent, hblames⟩
      rcases hfile with hopen | hasked
      · refine (List.mem_append.mp hopen).imp_right fun hkey => hload.asked_prefix.subset ?_
        exact List.mem_append_right _ hkey
      · exact .inr hasked
  | loaded _ _ _ _ ihLater =>
      obtain ⟨c, hc, hrest⟩ := htask
      exact ihLater hr ⟨c, hc, fun i hi => hrest (List.mem_cons_of_mem _ hi)⟩

end Loading

open Loading

/-- **Errors point into files that were read.**  An error of a compilation that is no import
cycle and no chain of imports that is too long names the root or a file the resolver was asked
for and answered, and it points to a line of what that file holds.  An import that is not found
is an import statement of the file on that line; its key is the last that was asked for, and
the resolver's fault is the reason given. -/
theorem compile_blames_files_read (resolver : Resolver) (nesting : Nesting) (name : String)
    (bytes : ByteArray) {e : Error}
    (h : (compile resolver nesting name bytes).result = .error e) :
    (∃ file content, (file = name ∧ content = bytes ∨
        file ∈ (compile resolver nesting name bytes).asked ∧
          resolver.resolve file = .ok content) ∧
      e.file? = some file ∧
      Blames resolver (compile resolver nesting name bytes).asked file content e) ∨
    (∃ path chain, e = .importCycle path chain) ∨ ∃ path, e = .importDepth path := by
  let g : ImportGraph := ⟨name, bytes, resolver, nesting⟩
  have hnew : g.root ∉ Progress.done .empty ⟨.empty, []⟩ := List.not_mem_nil
  rcases hload : (loadRoot (context g .empty) g.root g.bytes).from ⟨.empty, []⟩ with ⟨r, q⟩
  have hcompile : compile resolver nesting name bytes = ⟨r.map fun _ => q.set, q.asked⟩ := by
    rw [compile, loadInto, loadOver_eq .empty g .empty, hload]
  rw [hcompile] at h ⊢
  obtain rfl : r = .error e := by
    cases r with
    | ok => cases h
    | error e' =>
        cases h
        rfl
  refine ((runs_loadRoot hnew hload).points_into rfl trivial).imp_left ?_
  rintro ⟨file, content, hfile, hcontent, hblames⟩
  refine ⟨file, content, ?_, by cases hblames <;> rfl, hblames⟩
  by_cases hroot : file = g.root
  · rw [hroot, ImportGraph.content?_root] at hcontent
    exact .inl ⟨hroot, (Option.some.inj hcontent).symm⟩
  · rw [ImportGraph.content?_of_ne hroot] at hcontent
    have hasked : file ∈ q.asked := by simpa [Task.opened, hroot] using hfile
    exact .inr ⟨hasked, Fallible.toOption_eq_some.mp hcontent⟩

/-- A file with an import on its third line, of a file that is not there. -/
def astray : Table :=
  .ofList [(⟨"lib/b"⟩, "syntax='s';\n/*\n*/ import public './gone';".toUTF8)]

theorem compile_blames_files_read_astray :
    let e : Error := .importNotFound "lib/b" 3 "./gone" "file not found in memory: gone"
    let c := compile (.ofTable astray) .nested "a" (importsOf ["lib//b"])
    c.result = .error e ∧ c.asked = ["lib/b", "gone"] ∧
    ∃ content, (Resolver.ofTable astray).resolve "lib/b" = .ok content ∧
      Blames (.ofTable astray) c.asked "lib/b" content e := by
  intro e c
  have hresult : c.result = .error e := by decide +kernel
  refine ⟨hresult, by decide +kernel, ?_⟩
  rcases compile_blames_files_read (.ofTable astray) .nested "a" (importsOf ["lib//b"]) hresult
    with ⟨file, content, hread, hfile, hblames⟩ | ⟨_, _, hcycle⟩ | ⟨_, hdeep⟩
  · obtain rfl : "lib/b" = file := Option.some.inj hfile
    rcases hread with ⟨hroot, -⟩ | ⟨-, hanswer⟩
    · exact absurd hroot (by decide)
    · exact ⟨content, hanswer, hblames⟩
  · exact Error.noConfusion hcycle
  · exact Error.noConfusion hdeep

end Schemata
