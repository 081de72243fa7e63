/-
The names of the files a directory lists.

A table lists below a directory whatever begins with the directory's normal form.  Where that
is empty or climbs, paths are listed that leave the directory: everything begins with nothing,
also what lies above or at the root.  A name does not tell them from the files inside, since
it has no `..` and no root in it.

So it is not the names alone that keep listed files apart but names and leads together.  Two
files get one name if and only if their paths have the same names in them.
-/
import Schemata.Batch
import Schemata.Proofs.Loading.Closure
import Schemata.Proofs.Path.Lead
import Schemata.Proofs.Resolver.Directories

namespace Schemata

namespace Table

variable {t : Table} {files : List (Path × ByteArray)} {root root' p q : Path}
  {rest : List Component}

/-! ### Files a table lists -/

theorem mem_keys_insert {path : Path} {content : ByteArray} {cs : List Component} :
    cs ∈ (t.insert path content).keys ↔ path.normalComponents = cs ∨ cs ∈ t.keys := by
  rw [keys, keys, insert, Std.TreeMap.mem_keys, Std.TreeMap.mem_keys, Std.TreeMap.mem_insert,
    Std.LawfulEqCmp.compare_eq_iff_eq]

theorem ofList_concat (file : Path × ByteArray) :
    ofList (files ++ [file]) = (ofList files).insert file.1 file.2 := by
  rw [ofList, List.foldl_append]
  rfl

/-- The keys of a table are the normal forms of what was put in. -/
theorem mem_keys_ofList {cs : List Component} :
    cs ∈ (ofList files).keys ↔ ∃ file ∈ files, file.1.normalComponents = cs := by
  induction files using List.reverseRecOn with
  | nil => simp [ofList, empty, keys]
  | append_singleton files file ih =>
      rw [ofList_concat, mem_keys_insert, ih]
      simp [or_comm]

theorem isNormal_of_mem_keys {cs : List Component} (h : cs ∈ (ofList files).keys) :
    IsNormal cs := by
  obtain ⟨file, -, rfl⟩ := mem_keys_ofList.mp h
  exact file.1.isNormal_normalComponents

theorem isBelow_iff {dir key : List Component} :
    isBelow dir key = true ↔ dir <+: key ∧ dir ≠ key := by
  rw [isBelow, Bool.and_eq_true, List.isPrefixOf_iff_prefix, decide_eq_true_eq, ne_comm]

/-- A directory is listed in the order of the components, and nothing twice. -/
theorem list_pairwise (hnormal : ∀ cs ∈ t.keys, IsNormal cs) (dir : Path) :
    (t.list dir).Pairwise fun p q => compare p.components q.components = .lt := by
  have hordered : (t.keys.filter (isBelow dir.normalComponents)).Pairwise
      fun cs ds => compare cs ds = .lt := Std.TreeMap.ordered_keys.filter _
  refine List.pairwise_map.mpr (hordered.imp_of_mem fun {cs ds} hcs hds hlt => ?_)
  rwa [(hnormal cs (List.mem_filter.mp hcs).1).components_ofComponents,
    (hnormal ds (List.mem_filter.mp hds).1).components_ofComponents]

/-- What a directory lists are the normal forms that go on from its own. -/
theorem mem_list_ofList :
    p ∈ (ofList files).list root ↔ (∃ f ∈ files, f.1.normalize = p) ∧
      root.normalComponents <+: p.components ∧ root.normalComponents ≠ p.components := by
  rw [list, List.mem_map]
  constructor
  · rintro ⟨cs, hcs, rfl⟩
    obtain ⟨hkey, hbelow⟩ := List.mem_filter.mp hcs
    obtain ⟨f, hf, rfl⟩ := mem_keys_ofList.mp hkey
    refine ⟨⟨f, hf, rfl⟩, isBelow_iff.mp ?_⟩
    rwa [f.1.isNormal_normalComponents.components_ofComponents]
  · rintro ⟨⟨f, hf, rfl⟩, hbelow⟩
    rw [Path.components_normalize] at hbelow
    exact ⟨_, List.mem_filter.mpr ⟨mem_keys_ofList.mpr ⟨f, hf, rfl⟩, isBelow_iff.mpr hbelow⟩, rfl⟩

/-- A file of the table at a path in normal form that goes on from the directory by these
components. -/
structure Listed (t : Table) (root p : Path) (rest : List Component) : Prop where
  isNormal : IsNormal p.components
  components : p.components = root.normalComponents ++ rest
  spelled : Path.ofComponents p.components = p
  content : ∃ bytes, t.content? p = some bytes

/-- What a directory lists goes on from its normal form. -/
theorem exists_listed (hp : p ∈ (ofList files).list root) :
    ∃ rest, (ofList files).Listed root p rest := by
  obtain ⟨⟨file, hfile, rfl⟩, ⟨rest, hrest⟩, -⟩ := mem_list_ofList.mp hp
  refine ⟨rest, ?_, hrest.symm, ?_, ?_⟩
  · rw [Path.components_normalize]
    exact file.1.isNormal_normalComponents
  · rw [Path.components_normalize]
    rfl
  · have hkey := mem_keys_ofList.mpr ⟨file, hfile, rfl⟩
    rw [keys, Std.TreeMap.mem_keys, Std.TreeMap.mem_iff_isSome_getElem?] at hkey
    rw [content?, Path.normalComponents_normalize]
    exact Option.isSome_iff_exists.mp hkey

namespace Listed

theorem normalComponents_eq (h : t.Listed root p rest) : p.normalComponents = p.components := by
  rw [← h.spelled, h.isNormal.normalComponents_ofComponents, h.spelled]

theorem hasFile (h : t.Listed root p rest) : t.source.HasFile p := by
  obtain ⟨bytes, hbytes⟩ := h.content
  simp [Source.HasFile, source, present, isDir, hbytes]

/-- Below a directory that does not only climb, a file goes on by names. -/
theorem exists_names (h : t.Listed root p rest) (hroot : ¬ root.OnlyClimbs) :
    ∃ names : List Raw, rest = names.map .name ∧ ∀ s ∈ names, IsName s := by
  refine (h.components ▸ h.isNormal).names_behind ?_
  simpa [Path.OnlyClimbs] using hroot

/-- Below a directory that does not only climb, a file starts as the directory does. -/
theorem lead_eq (h : t.Listed root p rest) (hroot : ¬ root.OnlyClimbs) : p.lead = root.lead := by
  obtain ⟨names, rfl, -⟩ := h.exists_names hroot
  rw [Path.lead, h.normalComponents_eq, h.components, leadOf_append_names]
  rfl

theorem namesBelow_eq (h : t.Listed root p rest) :
    root.namesBelow p = root.keptNames ++ namesOf rest :=
  Path.namesBelow_eq h.isNormal h.components

theorem isName (h : t.Listed root p rest) : ∀ s ∈ root.keptNames ++ namesOf rest, IsName s := by
  have hrest : IsNormal rest :=
    h.isNormal.sublist (h.components ▸ List.sublist_append_right _ _)
  exact List.forall_mem_append.mpr ⟨root.isName_of_mem_keptNames, hrest.isName_of_mem_namesOf⟩

end Listed

/-! ### Names of listed files -/

/-- **Listed files share a name if and only if their paths have the same names in them**, as
long as these are texts. -/
theorem relativeName_eq_iff (hp : p ∈ (ofList files).list root) (hq : q ∈ (ofList files).list root)
    (hptext : root.Legible p) (hqtext : root.Legible q) :
    root.relativeName p = root.relativeName q ↔ namesOf p.components = namesOf q.components := by
  obtain ⟨rest, h⟩ := exists_listed hp
  obtain ⟨rest', h'⟩ := exists_listed hq
  have hnames : root.relativeName p = root.relativeName q ↔
      root.keptNames ++ namesOf rest = root.keptNames ++ namesOf rest' := by
    rw [← Raw.ofString_injective.eq_iff, Path.ofString_relativeName hptext,
      Path.ofString_relativeName hqtext, h.namesBelow_eq, h'.namesBelow_eq]
    exact ⟨Path.joinSlash_inj h.isName h'.isName, congrArg joinSlash⟩
  rw [hnames, h.components, h'.components, namesOf_append, namesOf_append,
    List.append_cancel_left_eq, List.append_cancel_left_eq]

/-- A listed file can be told from its name and what stands before the names in its path. -/
theorem eq_of_relativeName_eq (hp : p ∈ (ofList files).list root)
    (hq : q ∈ (ofList files).list root) (hptext : root.Legible p) (hqtext : root.Legible q)
    (hlead : p.lead = q.lead) (hname : root.relativeName p = root.relativeName q) : p = q := by
  have hnames := (relativeName_eq_iff hp hq hptext hqtext).mp hname
  obtain ⟨rest, h⟩ := exists_listed hp
  obtain ⟨rest', h'⟩ := exists_listed hq
  rw [Path.lead, Path.lead, h.normalComponents_eq, h'.normalComponents_eq] at hlead
  rw [← h.spelled, ← h'.spelled, h.isNormal.eq_of_leadOf_eq h'.isNormal hlead hnames]

/-- Below a directory that does not only climb, all files start alike. -/
theorem lead_eq_of_mem_list (hroot : ¬ root.OnlyClimbs) (hp : p ∈ (ofList files).list root)
    (hq : q ∈ (ofList files).list root) : p.lead = q.lead := by
  obtain ⟨rest, h⟩ := exists_listed hp
  obtain ⟨rest', h'⟩ := exists_listed hq
  rw [h.lead_eq hroot, h'.lead_eq hroot]

/-- A directory gives its files the same names however it is spelled, as long as it keeps the
same of its own. -/
theorem relativeName_congr (hroot : root.normalComponents = root'.normalComponents)
    (hkept : root.keptNames = root'.keptNames) (hp : p ∈ (ofList files).list root) :
    root.relativeName p = root'.relativeName p := by
  obtain ⟨rest, h⟩ := exists_listed hp
  rw [Path.relativeName, Path.relativeName, h.namesBelow_eq,
    Path.namesBelow_eq h.isNormal (hroot ▸ h.components), hkept]

end Table

/-- **A scan keeps files apart that start alike and are named by texts.**  Two files a directory
lists get different names if the names on the way to them are texts, their paths climb equally
often and both or none is absolute; and so they start, unless the directory's normal form is
empty or nothing but `..`. -/
theorem relativeName_ne_of_listed (files : List (Path × ByteArray)) {root p q : Path}
    (hp : p ∈ (Table.ofList files).list root) (hq : q ∈ (Table.ofList files).list root)
    (hne : p ≠ q) (halike : ¬ root.OnlyClimbs ∨ p.lead = q.lead)
    (htext : root.Legible p ∧ root.Legible q) : root.relativeName p ≠ root.relativeName q := by
  intro hname
  have hlead : p.lead = q.lead := by
    rcases halike with hroot | hlead
    · exact Table.lead_eq_of_mem_list hroot hp hq
    · exact hlead
  exact hne (Table.eq_of_relativeName_eq hp hq htext.1 htext.2 hlead hname)

/-- A file, one of the same name a directory above it, and one further down. -/
def besides : List (Path × ByteArray) :=
  [(⟨"a.proto"⟩, importsOf []), (⟨"../a.proto"⟩, "syntax = \"proto2\";".toUTF8),
    (⟨"d/../x/a.proto"⟩, importsOf [])]

/-- Below the directory `.` files that start alike are kept apart. -/
theorem besides_kept_apart :
    let t := Table.ofList besides
    ⟨"a.proto"⟩ ∈ t.list ⟨"./"⟩ ∧ ⟨"x/a.proto"⟩ ∈ t.list ⟨"./"⟩ ∧
    Path.relativeName ⟨"./"⟩ ⟨"a.proto"⟩ ≠ Path.relativeName ⟨"./"⟩ ⟨"x/a.proto"⟩ := by
  intro t
  have hp : ⟨"a.proto"⟩ ∈ t.list ⟨"./"⟩ := by decide +kernel
  have hq : ⟨"x/a.proto"⟩ ∈ t.list ⟨"./"⟩ := by decide +kernel
  exact ⟨hp, hq, relativeName_ne_of_listed besides hp hq (by decide) (.inr (by decide +kernel))
    (by decide +kernel)⟩

/-- The file above the directory `.` is listed there, takes the name of the one inside, and a
batch loses the latter. -/
theorem besides_clash :
    let t := Table.ofList besides
    ⟨"../a.proto"⟩ ∈ t.list ⟨"."⟩ ∧ ⟨"a.proto"⟩ ∈ t.list ⟨"."⟩ ∧
    (⟨"../a.proto"⟩ : Path) ≠ ⟨"a.proto"⟩ ∧
    Path.relativeName ⟨"."⟩ ⟨"../a.proto"⟩ = Path.relativeName ⟨"."⟩ ⟨"a.proto"⟩ ∧
    compileAll t.source .default [⟨"."⟩] =
      .ok ⟨⟨[.empty "a.proto" "proto2", .empty "x/a.proto" "proto3"]⟩, []⟩ :=
  ⟨by decide +kernel, by decide +kernel, by decide, by decide +kernel,
    Fallible.toOption_eq_some.mp (by decide +kernel)⟩

end Schemata
