/-
The layout of a text does not matter.

Filling up a text next to a lexeme moves its tokens about and changes none of them; a tree
that is read from tokens that were moved about differs in lines only; and lines are no part
of a descriptor.  So the text compiles to the same descriptor as before, or to none as
before.
-/
import Schemata.Proofs.Grammar.Placeless
import Schemata.Proofs.Lowering.Imports
import Schemata.Proofs.Token.Layout

namespace Schemata

open Fallible Lexer

/-- Trees that differ in lines only are lowered alike. -/
theorem Schema.lower_eq_of_bare {s s' : Schema} (h : s'.bare = s.bare) (name : String)
    (nesting : Nesting) : (s'.lower name s'.enumNames nesting).toOption =
      (s.lower name s.enumNames nesting).toOption := by
  rw [← s'.lower_bare, ← s.lower_bare, ← s'.enumNames_bare, ← s.enumNames_bare, h]

/-- The descriptor of a text is that of the tree of its tokens. -/
theorem file_compileBytes_of_lex {text : String} {ts : List Located} (h : lex text = .ok ts)
    (name : String) (nesting : Nesting) :
    (compileBytes name text.toUTF8 nesting).toOption.map (·.file) =
      (Schema.read ts).toOption.bind fun s => (s.lower name s.enumNames nesting).toOption := by
  rw [compileBytes_toUTF8]
  cases hschema : Schema.read ts with
  | error r => simp [compileText, tokensOf, h, schemaOf, hschema, Except.toOption,
      bind, Except.bind]
  | ok s =>
      cases hlower : s.lower name s.enumNames nesting <;>
        simp [compileText, tokensOf, h, schemaOf, hschema, hlower, Except.toOption, bind,
          Except.bind, pure, Except.pure]

/-- Texts with the same tokens have the same descriptor. -/
theorem file_compileBytes_of_same_tokens {text text' : String} {ts ts' : List Located}
    (hlex : lex text = .ok ts) (hlex' : lex text' = .ok ts')
    (h : ts'.map (·.token) = ts.map (·.token)) (name : String) (nesting : Nesting) :
    (compileBytes name text'.toUTF8 nesting).toOption.map (·.file) =
      (compileBytes name text.toUTF8 nesting).toOption.map (·.file) := by
  rw [file_compileBytes_of_lex hlex, file_compileBytes_of_lex hlex']
  cases hschema : Schema.read ts with
  | ok s =>
      obtain ⟨s', hschema', hbare⟩ := Schema.read_of_same_tokens h hschema
      rw [hschema']
      exact Schema.lower_eq_of_bare hbare name nesting
  | error r =>
      cases hschema' : Schema.read ts' with
      | error r' => rfl
      | ok s' =>
          obtain ⟨s, hread, -⟩ := Schema.read_of_same_tokens h.symm hschema'
          cases hschema.symm.trans hread

/-- **The descriptor of a text does not depend on its layout.**  A text that is lexed is cut
into segments.  Wherever it starts or has a lexeme on one side or the other, it may be filled
up with white space or a comment: its tokens stay the same, and in either mode it compiles to
the same descriptor or to none. -/
theorem compileBytes_filled {text : String} {ts : List Located} (hlex : lex text = .ok ts) :
    (∃ ss, Segmented ss ∧ textOf ss = text.toList) ∧
      ∀ before after filler, textOf before ++ textOf after = text.toList → Seam before after →
        Filler filler →
          ∃ ts', lex (String.ofList (textOf before ++ (filler ++ textOf after))) = .ok ts' ∧
            ts'.map (·.token) = ts.map (·.token) ∧
            ∀ name nesting,
              (compileBytes name
                (String.ofList (textOf before ++ (filler ++ textOf after))).toUTF8
                  nesting).toOption.map (·.file) =
                (compileBytes name text.toUTF8 nesting).toOption.map (·.file) := by
  obtain ⟨ss, hss, hcut, -⟩ := lex_eq_ok_iff.mp hlex
  refine ⟨⟨ss, hss, hcut⟩, fun before after filler htext hseam hfiller => ?_⟩
  obtain ⟨old, new, hold, hnew, htokens⟩ := lex_filled hseam hfiller
  rw [htext, String.ofList_toList, hlex] at hold
  obtain rfl := Except.ok.inj hold
  exact ⟨new, hnew, htokens, file_compileBytes_of_same_tokens hlex hnew htokens⟩

/-- The lexemes of a text that names an edition, cut behind the first of them. -/
def editionSegments : List Segment × List Segment :=
  ([⟨some (.keyword .edition), "syntax".toList⟩],
    [⟨some (.punct .equals), ['=']⟩, ⟨some (.str ""), ['"', '"']⟩,
      ⟨some (.punct .semicolon), [';']⟩])

theorem compileBytes_edition_filled :
    (∃ ts, lex "syntax=\"\";" = .ok ts) ∧ Seam editionSegments.1 editionSegments.2 ∧
      Filler "//=\n".toList ∧
      (compileBytes "t" "syntax//=\n=\"\";".toUTF8 .nested).toOption.map (·.file) =
        some (.empty "t" "") := by
  have hlex : (lex "syntax=\"\";").toOption.isSome = true := by decide +kernel
  obtain ⟨ts, hts⟩ := Option.isSome_iff_exists.mp hlex
  have hts := toOption_eq_some.mp hts
  have hseam : Seam editionSegments.1 editionSegments.2 := by
    refine ⟨⟨.keyword .edition (by decide), .punct .equals, ?_, .punct .semicolon, trivial⟩,
      .inr (.inl ⟨_, rfl, rfl⟩)⟩
    exact @Written.str '"' [] _ (.inl rfl) nofun
  have hfiller : Filler "//=\n".toList := @Filler.line ['='] (by decide)
  obtain ⟨-, hfilled⟩ := compileBytes_filled hts
  obtain ⟨ts', -, -, hfile⟩ := hfilled editionSegments.1 editionSegments.2 _ (by decide)
    hseam hfiller
  refine ⟨⟨ts, hts⟩, hseam, hfiller, ?_⟩
  have hfile := hfile "t" .nested
  rw [show String.ofList (textOf editionSegments.1 ++ ("//=\n".toList ++ textOf editionSegments.2))
    = "syntax//=\n=\"\";" by decide +kernel] at hfile
  rw [hfile, compileBytes_toUTF8]
  decide +kernel

end Schemata
