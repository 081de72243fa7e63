/-
What a table answers at the places of its files.

The entries of a table are its files, each under the components of its place, whatever the
spelling and the order they were put in.  If the files could lie on a disk, the table shows
them: that a directory is only there for the files below it is how a table works anyway, and
the order of the keys is the order to list in.
-/
import Mathlib.Data.List.Perm.Basic
import Schemata.Proofs.Loading.Bound
import Schemata.Proofs.Resolver.Listing
import Schemata.Proofs.Source.Files

namespace Schemata

namespace Table

/-- The table holds the files and no others. -/
def HasFiles (t : Table) (files : List (List Raw × ByteArray)) : Prop :=
  t.files.toList.Perm (files.map fun f => (f.1.map .name, f.2))

theorem injective_names : Function.Injective (List.map Component.name) :=
  List.map_injective_iff.mpr fun _ _ => Component.name.inj

/-! ### Putting files in -/

section

variable {t : Table} {files : List (Path × ByteArray)} {p : Path} {content : ByteArray}

/-- The entry a file becomes. -/
def entry (f : Path × ByteArray) : List Component × ByteArray := (f.1.normalComponents, f.2)

/-- A file at a new place is one more entry. -/
theorem toList_insert_perm (hnew : p.normalComponents ∉ t.keys) :
    (t.insert p content).files.toList.Perm (entry (p, content) :: t.files.toList) := by
  have hkeep : t.files.toList.filter (fun e => ¬(p.normalComponents == e.1) = true) =
      t.files.toList := by
    refine List.filter_eq_self.mpr fun e he => ?_
    have hkey : e.1 ∈ t.keys := by
      rw [keys, ← Std.TreeMap.map_fst_toList_eq_keys]
      exact List.mem_map_of_mem he
    simpa using fun heq : p.normalComponents = e.1 => hnew (heq ▸ hkey)
  have hperm := Std.TreeMap.toList_insert_perm (t := t.files) (k := p.normalComponents)
    (v := content)
  rwa [hkeep] at hperm

/-- Files at new places that differ are so many more entries. -/
theorem toList_foldl_insert_perm (hnew : ∀ f ∈ files, f.1.normalComponents ∉ t.keys)
    (hdistinct : (files.map (·.1.normalComponents)).Nodup) :
    (files.foldl (fun t (path, content) => t.insert path content) t).files.toList.Perm
      (files.map entry ++ t.files.toList) := by
  induction files generalizing t with
  | nil => exact .refl _
  | cons f files ih =>
      obtain ⟨hf, hdistinct⟩ := List.nodup_cons.mp hdistinct
      obtain ⟨hfnew, hnew⟩ := List.forall_mem_cons.mp hnew
      have hnew' : ∀ g ∈ files, g.1.normalComponents ∉ (t.insert f.1 f.2).keys := by
        intro g hg hmem
        rcases mem_keys_insert.mp hmem with heq | hmem
        · exact hf (List.mem_map.mpr ⟨g, hg, heq.symm⟩)
        · exact hnew g hg hmem
      refine (ih hnew' hdistinct).trans (((toList_insert_perm hfnew).append_left _).trans ?_)
      exact List.perm_middle

/-- **No file replaces another one at a different place**: all that are put in are held. -/
theorem hasFiles_ofList {places : List (List Raw × ByteArray)}
    (hdistinct : (places.map (·.1)).Nodup)
    (hplaces : (files.map entry).Perm (places.map fun f => (f.1.map .name, f.2))) :
    (ofList files).HasFiles places := by
  have hnodup : (files.map (·.1.normalComponents)).Nodup := by
    have hkeys : (files.map (·.1.normalComponents)).Perm
        ((places.map (·.1)).map (List.map Component.name)) := by
      simpa [Function.comp_def, entry] using hplaces.map Prod.fst
    exact hkeys.nodup_iff.mpr (hdistinct.map injective_names)
  have hperm := toList_foldl_insert_perm (t := empty) (by simp [empty, keys]) hnodup
  rw [show empty.files.toList = [] from rfl, List.append_nil] at hperm
  exact hperm.trans hplaces

end

/-! ### Looking files up -/

section

variable {t : Table} {files : List (List Raw × ByteArray)} {names : List Raw}
  {content : ByteArray}

theorem isBelow_names {names' : List Raw} :
    isBelow (names.map .name) (names'.map .name) = true ↔ names <+: names' ∧ names ≠ names' := by
  rw [isBelow_iff, List.prefix_map_iff_of_injective fun _ _ => Component.name.inj,
    injective_names.ne_iff]

namespace HasFiles

theorem keys_perm (h : t.HasFiles files) :
    t.keys.Perm (files.map fun f => f.1.map Component.name) := by
  have hperm := List.Perm.map Prod.fst h
  rwa [Std.TreeMap.map_fst_toList_eq_keys, List.map_map] at hperm

theorem weight_eq (h : t.HasFiles files) :
    t.weight = (files.map fun f => f.2.size).foldr (· + ·) 0 := by
  have hperm := (List.Perm.map Prod.snd h).map ByteArray.size
  rw [weight, values_eq, hperm.foldr_eq, List.map_map, List.map_map]
  rfl

/-- The file at a place is the one that was put there. -/
theorem content?_eq_some_iff (h : t.HasFiles files) (hnames : ∀ s ∈ names, IsName s) :
    t.content? (.ofNames names) = some content ↔ (names, content) ∈ files := by
  rw [content?, ← Std.TreeMap.mem_toList_iff_getElem?_eq_some, List.Perm.mem_iff h,
    Path.normalComponents_ofNames hnames]
  constructor
  · intro hmem
    obtain ⟨f, hf, heq⟩ := List.mem_map.mp hmem
    obtain ⟨hcs, hcontent⟩ := Prod.mk.inj heq
    rwa [← injective_names hcs, ← hcontent]
  · exact fun hmem => List.mem_map.mpr ⟨_, hmem, rfl⟩

theorem isSome_content?_iff (h : t.HasFiles files) (hnames : ∀ s ∈ names, IsName s) :
    (t.content? (.ofNames names)).isSome = true ↔ ∃ f ∈ files, f.1 = names := by
  rw [Option.isSome_iff_exists]
  constructor
  · rintro ⟨content, hcontent⟩
    exact ⟨_, (h.content?_eq_some_iff hnames).mp hcontent, rfl⟩
  · rintro ⟨f, hf, rfl⟩
    exact ⟨f.2, (h.content?_eq_some_iff hnames).mpr hf⟩

theorem any_isBelow (h : t.HasFiles files) :
    t.keys.any (isBelow (names.map .name)) = true ↔ ∃ f ∈ files, names <+: f.1 ∧ names ≠ f.1 := by
  rw [h.keys_perm.any_eq, List.any_map, List.any_eq_true]
  exact exists_congr fun f => and_congr_right fun _ => isBelow_names

theorem isDir_ofNames (h : t.HasFiles files) (hfiles : IsLayout files)
    (hnames : ∀ s ∈ names, IsName s) :
    t.isDir (.ofNames names) = true ↔ ∃ f ∈ files, names <+: f.1 ∧ names ≠ f.1 := by
  rw [isDir, Bool.and_eq_true, Path.normalComponents_ofNames hnames, h.any_isBelow,
    and_iff_right_iff_imp, ← Option.not_isSome, Bool.not_eq_true', ← Bool.not_eq_true,
    h.isSome_content?_iff hnames]
  -- A file at the place would be where the file below needs a directory.
  rintro ⟨f, hf, hpre, hproper⟩ ⟨g, hg, rfl⟩
  exact hproper (hfiles.leaf g hg f hf hpre)

theorem present_ofNames (h : t.HasFiles files) (hfiles : IsLayout files)
    (hnames : ∀ s ∈ names, IsName s) :
    t.present (.ofNames names) = true ↔ ∃ f ∈ files, names <+: f.1 := by
  rw [present, Bool.or_eq_true, h.isSome_content?_iff hnames, h.isDir_ofNames hfiles hnames]
  constructor
  · rintro (⟨f, hf, rfl⟩ | ⟨f, hf, hpre, -⟩)
    · exact ⟨f, hf, List.prefix_refl _⟩
    · exact ⟨f, hf, hpre⟩
  · rintro ⟨f, hf, hpre⟩
    by_cases heq : f.1 = names
    · exact .inl ⟨f, hf, heq⟩
    · exact .inr ⟨f, hf, hpre, Ne.symm heq⟩

/-- A directory lists the files below it. -/
theorem list_perm (h : t.HasFiles files) (hfiles : IsLayout files)
    (hnames : ∀ s ∈ names, IsName s) (hdir : ∃ f ∈ files, names <+: f.1 ∧ names ≠ f.1) :
    (t.list (.ofNames names)).Perm
      ((files.filter fun f => names.isPrefixOf f.1).map fun f => .ofNames f.1) := by
  obtain ⟨g, hg, hpre, hproper⟩ := hdir
  have hkeep : files.filter (isBelow (names.map .name) ∘ fun f => f.1.map .name) =
      files.filter fun f => names.isPrefixOf f.1 := by
    refine List.filter_congr fun f hf => Bool.eq_iff_iff.mpr ?_
    rw [Function.comp_apply, isBelow_names, List.isPrefixOf_iff_prefix]
    -- No file is at the directory's own place.
    refine and_iff_left_of_imp fun _ heq => hproper ?_
    rw [heq] at hpre ⊢
    exact hfiles.leaf f hf g hg hpre
  have hperm := (h.keys_perm.filter (isBelow (names.map .name))).map Path.ofComponents
  rw [List.filter_map, hkeep, List.map_map] at hperm
  have hspell : (Path.ofComponents ∘ fun f : List Raw × ByteArray => f.1.map .name) =
      fun f => .ofNames f.1 := funext fun f => Path.ofComponents_names f.1
  rwa [hspell, ← Path.normalComponents_ofNames hnames] at hperm

/-- The keys of such a table are normal forms. -/
theorem isNormal_of_mem_keys (h : t.HasFiles files) (hfiles : IsLayout files) :
    ∀ cs ∈ t.keys, IsNormal cs := by
  intro cs hcs
  obtain ⟨f, hf, rfl⟩ := List.mem_map.mp (h.keys_perm.mem_iff.mp hcs)
  exact Path.isNormal_names (hfiles.isName f hf)

/-- **A table shows the files it holds**, if they could lie on a disk. -/
theorem shows_source (h : t.HasFiles files) (hfiles : IsLayout files) :
    t.source.Shows files where
  present _ := h.present_ofNames hfiles
  isDir _ := h.isDir_ofNames hfiles
  top := by
    intro hfile
    have hnone : ¬ (t.content? (.ofNames [])).isSome = true := by
      rw [h.isSome_content?_iff (by simp)]
      exact fun ⟨f, hf, hnil⟩ => hfiles.below f hf hnil
    have hpresent : t.present (.ofNames []) = true := hfile.1
    rw [present, Bool.or_eq_true, or_iff_right hnone] at hpresent
    exact Bool.false_ne_true (hfile.2.symm.trans hpresent)
  read f hf := by
    have hcontent := (h.content?_eq_some_iff (hfiles.isName f hf)).mpr hf
    show t.read (.ofNames f.1) = .ok f.2
    rw [read, hcontent]
  list := by
    intro names _ hdir
    have hnames : ∀ s ∈ names, IsName s := by
      obtain ⟨f, hf, hpre, -⟩ := hdir
      exact fun s hs => hfiles.isName f hf s (hpre.subset hs)
    refine ⟨_, rfl, h.list_perm hfiles hnames hdir, ?_⟩
    refine (t.list_pairwise (h.isNormal_of_mem_keys hfiles) _).imp fun hlt => ?_
    rw [hlt]
    rfl
  depth := congrArg (· + 2) h.weight_eq

end HasFiles

end

end Table

end Schemata
