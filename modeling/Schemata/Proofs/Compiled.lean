/-
What a file on its own compiles to.

Compiling goes wrong for the reasons each stage has and for no other: bytes that are no text,
a character that begins no lexeme, a token that fits no production, a second package.  The
complaint of the last stage about a type that names nothing is never heard, because lexing
and reading between them make no such type.  And what comes out is well formed all through:
what holds of the words and numbers of a text holds of the names and numbers of its
descriptor.
-/
import Schemata.Proofs.Grammar.WellFormed
import Schemata.Proofs.Loading.Size
import Schemata.Proofs.Lowering.Fields

namespace Schemata

open Fallible Lexer

/-! ### Well-formed descriptors -/

namespace Descriptor

/-- A dotted name, each segment of which is an identifier. -/
def IsDottedName (t : String) : Prop :=
  ∃ segments, AreIdentifiers segments ∧ t = ".".intercalate segments

/-- A field is named and numbered as fields are, and it goes with the name of a type exactly
if its kind is that of a message or an enum. -/
structure Field.WellFormed (f : Field) : Prop where
  name : IsIdentifier f.name
  number : 0 ≤ f.number.toInt ∧ f.number.toInt < 0x80000000
  typed : (∃ t, f.typeName? = some t ∧ t ≠ "") ↔ f.kind = .message ∨ f.kind = .enum
  typeName : ∀ t, f.typeName? = some t → IsDottedName t

structure Enum.WellFormed (e : Enum) : Prop where
  name : IsIdentifier e.name
  values : ∀ v ∈ e.values, IsIdentifier v.name

/-- The message and its fields and enums are well formed, and so is every message within it. -/
def Message.WellFormed (m : Message) : Prop :=
  m.Everywhere (Message.Holds IsIdentifier Field.WellFormed Enum.WellFormed)

structure File.WellFormed (f : File) : Prop where
  messages : ∀ m ∈ f.messages, m.WellFormed
  enums : ∀ e ∈ f.enums, e.WellFormed
  package : ∀ p, f.package? = some p → IsDottedName p

/-- The places of the imports that are passed on and of those that may be missing ascend, no
place is among both, and each is that of a dependency. -/
structure File.Indexed (f : File) : Prop where
  passedOn : f.publicDependencies.Pairwise (· < ·)
  weak : f.weakDependencies.Pairwise (· < ·)
  disjoint : ∀ i ∈ f.publicDependencies, i ∉ f.weakDependencies
  inside : ∀ i ∈ f.publicDependencies ++ f.weakDependencies, i.toNat < f.dependencies.length

end Descriptor

open Descriptor

theorem Lexer.IsIdentifier.ne_empty {w : String} (h : IsIdentifier w) : w ≠ "" := by
  rintro rfl
  obtain ⟨c, rest, hword, -⟩ := h.word
  cases hword

theorem AreIdentifiers.exists_getLast? {segments : List String} (h : AreIdentifiers segments) :
    ∃ last, segments.getLast? = some last ∧ last ≠ "" := by
  have hsome : segments.getLast? ≠ none := List.getLast?_eq_none_iff.not.mpr h.ne_nil
  obtain ⟨last, hlast⟩ := Option.ne_none_iff_exists'.mp hsome
  exact ⟨last, hlast, (h.all last (List.mem_of_getLast? hlast)).ne_empty⟩

theorem TypeRef.WellFormed.not_namesNothing {t : TypeRef} (h : t.WellFormed) :
    ¬ t.NamesNothing := by
  cases t with
  | scalar s => exact not_false
  | named segments =>
      obtain ⟨last, hlast, hne⟩ := AreIdentifiers.exists_getLast? h
      rintro (hnil | hempty)
      · exact h.ne_nil hnil
      · exact hne (Option.some.inj (hlast.symm.trans hempty))

/-- A well-formed field is lowered to a well-formed one. -/
theorem FieldDecl.WellFormed.lowered {f : FieldDecl} (h : f.WellFormed)
    (enumNames : List String) : (f.lowered enumNames).WellFormed := by
  obtain ⟨label?, type, name, number, line⟩ := f
  obtain ⟨hname, htype, hnumber⟩ := h
  have hrange : 0 ≤ number.toInt ∧ number.toInt < 0x80000000 := ⟨hnumber, number.toInt_lt⟩
  cases type with
  | scalar s =>
      refine ⟨hname, hrange, ⟨?_, ?_⟩, nofun⟩
      · rintro ⟨_, hnone, -⟩
        cases hnone
      · rintro (hkind | hkind) <;> cases hkind
  | named segments =>
      obtain ⟨last, hlast, hne⟩ := AreIdentifiers.exists_getLast? htype
      have htext := intercalate_ne_empty hlast hne
      refine ⟨hname, hrange, ⟨fun _ => ?_, fun _ => ⟨_, rfl, htext⟩⟩, ?_⟩
      · by_cases henum : segments.getLast?.getD "" ∈ enumNames
        · exact .inr (if_pos henum)
        · exact .inl (if_neg henum)
      · rintro t ht
        exact ⟨segments, htype, (Option.some.inj ht).symm⟩

theorem EnumDecl.WellFormed.lowered {e : EnumDecl} (h : e.WellFormed) :
    (Lowering.enum e).WellFormed where
  name := h.name
  values := by
    intro v hv
    obtain ⟨w, hw, rfl⟩ := List.mem_map.mp hv
    exact h.values w hw

namespace Lowering

theorem mem_placesFrom {kind : ImportKind} {is : List ImportDecl} {p : UInt64} :
    p ∈ placesFrom 0 kind is ↔ ∃ n i, is[n]? = some i ∧ i.kind = kind ∧ p = .ofNat n := by
  simp only [placesFrom, List.mem_map, List.mem_filter, Prod.exists, List.mem_zipIdx_iff_getElem?,
    decide_eq_true_eq]
  constructor
  · rintro ⟨i, n, ⟨hi, hkind⟩, rfl⟩
    exact ⟨n, i, hi, hkind, rfl⟩
  · rintro ⟨n, i, hi, hkind, rfl⟩
    exact ⟨i, n, ⟨hi, hkind⟩, rfl⟩

/-- A place below two to the sixty-four is what sixty-four bits hold of it. -/
theorem toNat_place {n : Nat} (h : n < UInt64.size) : (UInt64.ofNat n).toNat = n :=
  UInt64.toNat_ofNat_of_lt' h

/-- The places of the imports of one kind ascend. -/
theorem pairwise_placesFrom {kind : ImportKind} {is : List ImportDecl}
    (h : is.length < UInt64.size) : (placesFrom 0 kind is).Pairwise (· < ·) := by
  have hsub : ((is.zipIdx.filter (·.1.kind = kind)).map Prod.snd).Sublist
      (List.range' 0 is.length) := by
    rw [← List.zipIdx_map_snd 0 is]
    exact List.filter_sublist.map _
  have hplaces : placesFrom 0 kind is =
      ((is.zipIdx.filter (·.1.kind = kind)).map Prod.snd).map UInt64.ofNat := by
    rw [placesFrom, List.map_map]
    rfl
  rw [hplaces, List.pairwise_map]
  refine (List.Pairwise.sublist hsub List.pairwise_lt_range').imp_of_mem fun {m n} _ hn hlt => ?_
  have hbound := List.mem_range'_1.mp (hsub.subset hn)
  rw [UInt64.lt_iff_toNat_lt, toNat_place (by omega), toNat_place (by omega)]
  exact hlt

/-- Where so many imports can be counted, the places of those of one kind are places of
imports, and no import is of two kinds. -/
theorem indexed_grown {ctx : Context} {f : File} {ds : List Decl}
    (hempty : f.dependencies = [] ∧ f.publicDependencies = [] ∧ f.weakDependencies = [])
    (h : (ds.filterMap Decl.import?).length < UInt64.size) : (grown ctx f ds).Indexed := by
  obtain ⟨hdeps, hpublic, hweak⟩ := hempty
  simp only [grown, hdeps, hpublic, hweak, List.nil_append, List.length_nil]
  have hlt : ∀ {n : Nat} {i : ImportDecl}, (ds.filterMap Decl.import?)[n]? = some i →
      n < (ds.filterMap Decl.import?).length :=
    fun hi => (List.getElem?_eq_some_iff.mp hi).1
  refine ⟨pairwise_placesFrom h, pairwise_placesFrom h, fun p hp hq => ?_, fun p hp => ?_⟩
  · obtain ⟨m, i, hi, hikind, rfl⟩ := mem_placesFrom.mp hp
    obtain ⟨n, j, hj, hjkind, hmn⟩ := mem_placesFrom.mp hq
    have htoNat := congrArg UInt64.toNat hmn
    rw [toNat_place ((hlt hi).trans h), toNat_place ((hlt hj).trans h)] at htoNat
    obtain rfl := htoNat
    obtain rfl := Option.some.inj (hi.symm.trans hj)
    cases hikind.symm.trans hjkind
  · rw [List.length_map]
    obtain ⟨kind, hp⟩ : ∃ kind, p ∈ placesFrom 0 kind (ds.filterMap Decl.import?) :=
      (List.mem_append.mp hp).elim (⟨_, ·⟩) (⟨_, ·⟩)
    obtain ⟨n, i, hi, -, rfl⟩ := mem_placesFrom.mp hp
    rw [toNat_place ((hlt hi).trans h)]
    exact hlt hi

end Lowering

/-! ### Files on their own -/

section

variable {name text : String} {bytes : ByteArray} {nesting : Nesting} {tokens : List Located}
  {s : Schema}

/-- What is read from a text is well formed. -/
theorem wellFormed_of_lex (htokens : lex text = .ok tokens)
    (hschema : Schema.read tokens = .ok s) : Decl.WellFormedIn s.decls :=
  Schema.wellFormed_of_read hschema (legible_of_lex htokens)

/-- What is read is compiled, unless it declares more than one package. -/
theorem compileBytes_eq_checked (htext : String.fromUTF8? bytes = some text)
    (htokens : lex text = .ok tokens) (hschema : Schema.read tokens = .ok s) :
    compileBytes name bytes nesting = checked (packageFaults name s.packageLines)
      ⟨s, Lowering.grown ⟨name, s.enumNames, nesting⟩ (.empty name s.edition) s.decls⟩ := by
  have hfields := (wellFormed_of_lex htokens hschema).members.fields
  rw [compileBytes_of_read htext htokens hschema, Schema.lower_eq, checked_map,
    s.faults_eq_packageFaults name fun f hf => (hfields f hf).type.not_namesNothing]

/-- A file that does not pass the stages before the last is refused by one of them. -/
theorem compileBytes_ne_unresolved (file type : String) (line : Nat) :
    compileBytes name bytes nesting ≠ .error (.unresolvedType file line type) := by
  intro h
  cases htext : String.fromUTF8? bytes with
  | none => simp [compileBytes, htext] at h
  | some text =>
      cases htokens : lex text with
      | error u =>
          simp [compileBytes, htext, compileText, tokensOf, htokens, Unlexable.error, bind,
            Except.bind] at h
      | ok tokens =>
          cases hschema : Schema.read tokens with
          | error r =>
              simp [compileBytes, htext, compileText, tokensOf, htokens, schemaOf, hschema,
                Refusal.error, bind, Except.bind] at h
          | ok s =>
              rw [compileBytes_eq_checked htext htokens hschema, checked_eq_error] at h
              have hmem := List.mem_of_mem_head? h
              cases hlines : s.packageLines with
              | nil =>
                  rw [hlines] at hmem
                  cases hmem
              | cons first later =>
                  rw [hlines, packageFaults] at hmem
                  obtain ⟨_, -, hfault⟩ := List.mem_map.mp hmem
                  cases hfault

/-- What comes out is what the declarations of the tree add to an empty file. -/
theorem file_of_compileBytes {c : Compiled} (h : compileBytes name bytes nesting = .ok c) :
    c.file = Lowering.grown ⟨name, c.schema.enumNames, nesting⟩ (.empty name c.schema.edition)
      c.schema.decls := by
  obtain ⟨_, _, _, _, _, hlower⟩ := compileBytes_eq_ok h
  rw [Schema.lower_eq] at hlower
  exact (checked_eq_ok.mp hlower).2.symm

theorem wellFormed_of_compileBytes {c : Compiled} (h : compileBytes name bytes nesting = .ok c) :
    c.file.WellFormed := by
  obtain ⟨text, tokens, -, htokens, hschema, hlower⟩ := compileBytes_eq_ok h
  obtain ⟨hmembers, hpackages⟩ := wellFormed_of_lex htokens hschema
  obtain ⟨hmessages, henums⟩ := Schema.holds_lower hlower hmembers.messages
    (fun f hf => (hmembers.fields f hf).lowered _) (fun e he => (hmembers.enums e he).lowered)
  refine ⟨hmessages, henums, fun p hp => ?_⟩
  rw [file_of_compileBytes h] at hp
  simp only [Lowering.grown, File.empty, Option.or_none] at hp
  exact hpackages p (List.mem_of_getLast? hp)

theorem indexed_of_compileBytes {c : Compiled} (h : compileBytes name bytes nesting = .ok c)
    (hsize : bytes.size < UInt64.size) : c.file.Indexed := by
  have hkeys := length_keysOfBytes bytes
  rw [keysOfBytes, schemaOfBytes?_of_compileBytes h] at hkeys
  have himports : c.schema.imports.length ≤ bytes.size := by simpa using hkeys
  rw [file_of_compileBytes h]
  exact Lowering.indexed_grown ⟨rfl, rfl, rfl⟩ (himports.trans_lt hsize)

theorem length_packageLines (s : Schema) : s.packageLines.length = s.packages.length := by
  rw [Schema.packageLines, Schema.packages]
  induction s.decls with
  | nil => rfl
  | cons d ds ih =>
      rw [Decl.length_packages_cons, ← ih]
      cases hline : d.packageLine? <;> simp [hline, Nat.add_comm]

theorem packageFaults_eq_nil (file : String) {lines : List Nat} :
    packageFaults file lines = [] ↔ lines.length ≤ 1 := by
  cases lines <;> simp [packageFaults]

end

/-- **Compiling a file on its own succeeds exactly if it is a text that is lexed and read and
declares at most one package.**  A second package is complained about on its line, and a type
that names nothing never is.  What comes out is well formed at every depth, its imports are
indexed as far as sixty-four bits can count, and in flatten mode no message holds another
definition. -/
theorem compileBytes_iff_wellFormed (name : String) (bytes : ByteArray) (nesting : Nesting) :
    ((∃ c, compileBytes name bytes nesting = .ok c) ↔
      ∃ text tokens s, String.fromUTF8? bytes = some text ∧ lex text = .ok tokens ∧
        Schema.read tokens = .ok s ∧ s.packages.length ≤ 1) ∧
    (∀ text tokens s first second later, String.fromUTF8? bytes = some text →
      lex text = .ok tokens → Schema.read tokens = .ok s →
      s.packageLines = first :: second :: later →
      compileBytes name bytes nesting =
        .error (.grammar name second (Lowering.duplicatePackage first))) ∧
    (∀ file line type,
      compileBytes name bytes nesting ≠ .error (.unresolvedType file line type)) ∧
    ∀ c, compileBytes name bytes nesting = .ok c → c.file.WellFormed ∧
      (bytes.size < UInt64.size → c.file.Indexed) ∧
      (nesting = .flatten → ∀ m ∈ c.file.messages, Lowering.Flat m) := by
  refine ⟨⟨?_, ?_⟩, ?_, ?_, ?_⟩
  · rintro ⟨c, hc⟩
    obtain ⟨text, tokens, htext, htokens, hschema, hlower⟩ := compileBytes_eq_ok hc
    rw [Schema.lower_eq] at hlower
    have hfaults := (checked_eq_ok.mp hlower).1
    exact ⟨text, tokens, c.schema, htext, htokens, hschema,
      ((c.schema.faults_eq_nil name).mp hfaults).1⟩
  · rintro ⟨text, tokens, s, htext, htokens, hschema, hpackages⟩
    rw [← length_packageLines, ← packageFaults_eq_nil name] at hpackages
    rw [compileBytes_eq_checked htext htokens hschema, hpackages]
    exact ⟨_, rfl⟩
  · intro text tokens s first second later htext htokens hschema hlines
    rw [compileBytes_eq_checked htext htokens hschema, hlines]
    rfl
  · exact fun file line type => compileBytes_ne_unresolved file type line
  · intro c hc
    refine ⟨wellFormed_of_compileBytes hc, indexed_of_compileBytes hc, ?_⟩
    rintro rfl
    obtain ⟨_, _, _, _, _, hlower⟩ := compileBytes_eq_ok hc
    exact Schema.flat_lower hlower

/-- A text with imports of each kind and definitions in a message. -/
def indexedText : String :=
  "syntax='s';import public'x';import'y';import weak'z';package p.q;" ++
    "message M\x7bN.E e=0;message N\x7bint32 i=7;enum E\x7bA=-1;\x7d\x7d\x7d"

/-- What it compiles to in flatten mode. -/
def indexedFile : File where
  name := "t"
  edition := "s"
  package? := some "p.q"
  dependencies := ["x", "y", "z"]
  publicDependencies := [0]
  weakDependencies := [2]
  messages := [⟨"N", [⟨"i", 7, .scalar .int32, none, .optional⟩], [], []⟩,
    ⟨"M", [⟨"e", 0, .enum, some "N.E", .optional⟩], [], []⟩]
  enums := [⟨"E", [⟨"A", -1⟩]⟩]

/-- A text that declares a package on each of its two lines. -/
def twicePackaged : String := "syntax='s';package p;\npackage q;"

theorem compileBytes_indexed_wellFormed :
    (compileBytes "t" indexedText.toUTF8 .flatten).toOption.map (·.file) = some indexedFile ∧
      indexedFile.WellFormed ∧ indexedFile.Indexed ∧
      (∀ m ∈ indexedFile.messages, Lowering.Flat m) ∧
      compileBytes "t" twicePackaged.toUTF8 .nested =
        .error (.grammar "t" 2 (Lowering.duplicatePackage 1)) := by
  have htext : (compileText "t" indexedText .flatten).toOption.map (·.file) =
      some indexedFile := by decide +kernel
  rw [← compileBytes_toUTF8] at htext
  obtain ⟨c, hc, hfile⟩ := Option.map_eq_some_iff.mp htext
  have hall := (compileBytes_iff_wellFormed "t" indexedText.toUTF8 .flatten).2.2.2 c
    (toOption_eq_some.mp hc)
  rw [hfile] at hall
  have hlines : ((lex twicePackaged).toOption.bind fun ts => (Schema.read ts).toOption).map
      Schema.packageLines = some [1, 2] := by decide +kernel
  obtain ⟨s, hs, hlines⟩ := Option.map_eq_some_iff.mp hlines
  obtain ⟨tokens, htokens, hs⟩ := Option.bind_eq_some_iff.mp hs
  have htwice := (compileBytes_iff_wellFormed "t" twicePackaged.toUTF8 .nested).2.1 twicePackaged
    tokens s 1 2 [] (fromUTF8?_toUTF8 _) (toOption_eq_some.mp htokens) (toOption_eq_some.mp hs)
    hlines
  exact ⟨htext, hall.1, hall.2.1 (by decide +kernel), hall.2.2 rfl, htwice⟩

end Schemata
