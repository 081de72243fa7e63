/-
What a tree answers at the places of its files.

A tidy tree is the picture of its files: a place is a directory if a file lies properly below
it, and for no other reason.  So a path made of names is present if it leads to a file or on
towards one.

A listing reads one directory after another and keeps those it comes across for later, the last
one first.  A directory is done with before anything that waited behind it: it has found the
files in it and, one after another, those below the directories in it.  Sorted, these are the
files whose places go on from its own, whatever the order they were found in.
-/
import Mathlib.Algebra.Order.BigOperators.Group.List
import Mathlib.Algebra.Order.Group.Nat
import Schemata.Source.Tree
import Schemata.Proofs.Fallible
import Schemata.Proofs.Source.Files

namespace Schemata

/-- The tree of some files, with just the directories they lie in. -/
structure Tree.IsTidy (t : Tree) : Prop extends IsLayout t.files where
  /-- A directory that was made has a file below it. -/
  inhabited : ∀ d ∈ t.dirs, ∃ f ∈ t.files, d <+: f.1 ∧ d ≠ f.1

namespace Tree

variable {t : Tree} {place names : List Raw} {f : List Raw × ByteArray}

/-! ### Places -/

theorem file?_eq_some_iff (h : t.IsTidy) {content : ByteArray} :
    t.file? place = some content ↔ (place, content) ∈ t.files := by
  rw [file?, Option.map_eq_some_iff]
  constructor
  · rintro ⟨f, hf, rfl⟩
    have hplace : f.1 = place := by simpa using List.find?_some hf
    exact hplace ▸ List.mem_of_find?_eq_some hf
  · intro hmem
    cases hfind : t.files.find? (·.1 = place) with
    | none => simpa using List.find?_eq_none.mp hfind _ hmem
    | some f =>
        have hplace : f.1 = place := by simpa using List.find?_some hfind
        have hf := List.mem_of_find?_eq_some hfind
        have heq : f = (place, content) := List.inj_on_of_nodup_map h.distinct hf hmem hplace
        exact ⟨f, rfl, congrArg Prod.snd heq⟩

theorem isDirAt_iff (h : t.IsTidy) :
    t.isDirAt place = true ↔ place = [] ∨ ∃ f ∈ t.files, place <+: f.1 ∧ place ≠ f.1 := by
  rw [isDirAt, Bool.or_eq_true, Bool.or_eq_true, List.isEmpty_iff, List.any_eq_true,
    List.any_eq_true, or_assoc]
  refine or_congr_right ⟨?_, fun ⟨f, hf, hpre, hne⟩ => .inr ⟨f, hf, ?_⟩⟩
  · rintro (⟨d, hd, hpre⟩ | ⟨f, hf, hbelow⟩)
    · obtain ⟨f, hf, hdf, hne⟩ := h.inhabited d hd
      have hplace := List.isPrefixOf_iff_prefix.mp hpre
      refine ⟨f, hf, hplace.trans hdf, fun heq => hne ?_⟩
      exact hdf.eq_of_length_le (heq ▸ hplace.length_le)
    · simp only [Bool.and_eq_true, List.isPrefixOf_iff_prefix, decide_eq_true_eq] at hbelow
      exact ⟨f, hf, hbelow.1, Ne.symm hbelow.2⟩
  · simp only [Bool.and_eq_true, List.isPrefixOf_iff_prefix, decide_eq_true_eq]
    exact ⟨hpre, Ne.symm hne⟩

/-- Only a directory has places of files below it. -/
theorem isDirAt_of_below (h : t.IsTidy) (hf : f ∈ t.files) (hpre : place <+: f.1)
    (hne : place ≠ f.1) : t.isDirAt place = true :=
  (isDirAt_iff h).mpr (.inr ⟨f, hf, hpre, hne⟩)

/-! ### Walking by names -/

/-- A name leads on from a directory only. -/
theorem step_name_eq_ok {s : Raw} {next : List Raw} (hs : IsName s) :
    t.step place s = .ok next ↔ t.isDirAt place = true ∧ place ++ [s] = next := by
  rw [step, if_neg (not_or.mpr ⟨hs.ne_empty, hs.ne_dot⟩), if_neg hs.ne_up]
  by_cases hdir : t.isDirAt place = true <;> simp [hdir]

/-- A walk by names comes to where they lead if it goes through directories only. -/
theorem foldlM_step_eq_ok {next : List Raw} (hnames : ∀ s ∈ names, IsName s) :
    names.foldlM t.step place = .ok next ↔
      (∀ before, before <+: names → before ≠ names → t.isDirAt (place ++ before) = true) ∧
        place ++ names = next := by
  induction names generalizing place with
  | nil =>
      have hend : ([].foldlM t.step place : Except _ _) = .ok place := rfl
      rw [hend, List.append_nil]
      constructor
      · intro h
        cases h
        exact ⟨fun before hpre hne => absurd (List.prefix_nil.mp hpre) hne, rfl⟩
      · rintro ⟨-, rfl⟩
        rfl
  | cons s names ih =>
      obtain ⟨hs, hnames⟩ := List.forall_mem_cons.mp hnames
      rw [Fallible.foldlM_cons_eq_ok]
      constructor
      · rintro ⟨m, hstep, hrest⟩
        obtain ⟨hdir, rfl⟩ := (step_name_eq_ok hs).mp hstep
        obtain ⟨hdirs, rfl⟩ := (ih hnames).mp hrest
        refine ⟨fun before hpre hne => ?_, by simp⟩
        rcases List.prefix_cons_iff.mp hpre with rfl | ⟨rest, rfl, hbefore⟩
        · simpa using hdir
        · simpa using hdirs rest hbefore fun heq => hne (heq ▸ rfl)
      · rintro ⟨hdirs, rfl⟩
        refine ⟨place ++ [s], (step_name_eq_ok hs).mpr ⟨?_, rfl⟩, (ih hnames).mpr ⟨?_, by simp⟩⟩
        · simpa using hdirs [] List.nil_prefix (by simp)
        · intro before hpre hne
          simpa using
            hdirs (s :: before) (List.cons_prefix_cons.mpr ⟨rfl, hpre⟩) (by simpa using hne)

/-- A walk by names comes to nowhere else. -/
theorem eq_of_walk_ofNames (hne : names ≠ []) (hnames : ∀ s ∈ names, IsName s)
    (hwalk : t.walk (.ofNames names) = .ok place) : place = names := by
  rw [walk, Path.segments_ofNames hne hnames] at hwalk
  split_ifs at hwalk
  obtain ⟨-, heq⟩ := (foldlM_step_eq_ok hnames).mp hwalk
  exact heq.symm

/-- The names on the way to a file can be walked. -/
theorem walk_ofNames (h : t.IsTidy) (hne : names ≠ []) (hf : f ∈ t.files) (hpre : names <+: f.1) :
    t.walk (.ofNames names) = .ok names := by
  have hnames : ∀ s ∈ names, IsName s := fun s hs => h.isName f hf s (hpre.subset hs)
  have hnul : 0 ∉ (Path.ofNames names).raw := by
    intro hmem
    obtain ⟨s, hs, hmem⟩ := Path.exists_mem_of_mem_joinSlash (by decide) hmem
    exact h.noNul f hf s (hpre.subset hs) hmem
  have hstart : ¬ ((Path.ofNames names).raw = [] ∨ (Path.ofNames names).isAbsolute = true) := by
    rw [not_or, Path.ofNames, Path.isAbsolute_joinSlash hnames]
    exact ⟨Path.raw_ofNames_ne_nil hne hnames, Bool.false_ne_true⟩
  rw [walk, if_neg hnul, if_neg hstart, Path.segments_ofNames hne hnames]
  refine (foldlM_step_eq_ok hnames).mpr ⟨fun before hbefore hproper => ?_, rfl⟩
  rw [List.nil_append]
  refine isDirAt_of_below h hf (hbefore.trans hpre) fun heq => hproper ?_
  exact hbefore.eq_of_length_le (heq ▸ hpre.length_le)

/-! ### What is there -/

theorem read_ofNames (h : t.IsTidy) (hf : f ∈ t.files) : t.read (.ofNames f.1) = .ok f.2 := by
  have hwalk : t.walk (.ofNames f.1) = .ok f.1 :=
    walk_ofNames h (h.below f hf) hf (List.prefix_refl _)
  have hfile : t.file? f.1 = some f.2 := (file?_eq_some_iff h).mpr hf
  refine Fallible.bind_eq_ok.mpr ⟨f.1, hwalk, ?_⟩
  rw [hfile]

theorem isDir_ofNames (h : t.IsTidy) (hne : names ≠ []) (hnames : ∀ s ∈ names, IsName s) :
    t.isDir (.ofNames names) = true ↔ ∃ f ∈ t.files, names <+: f.1 ∧ names ≠ f.1 := by
  have hdir : t.isDirAt names = true ↔ ∃ f ∈ t.files, names <+: f.1 ∧ names ≠ f.1 := by
    rw [isDirAt_iff h, or_iff_right hne]
  constructor
  · intro hisDir
    rw [isDir] at hisDir
    split at hisDir
    · rename_i hwalk
      rwa [eq_of_walk_ofNames hne hnames hwalk, hdir] at hisDir
    · cases hisDir
  · rintro ⟨f, hf, hpre, hproper⟩
    rw [isDir, walk_ofNames h hne hf hpre]
    exact isDirAt_of_below h hf hpre hproper

theorem present_ofNames (h : t.IsTidy) (hne : names ≠ []) (hnames : ∀ s ∈ names, IsName s) :
    t.present (.ofNames names) = true ↔ ∃ f ∈ t.files, names <+: f.1 := by
  constructor
  · intro hpresent
    rw [present] at hpresent
    split at hpresent
    · rename_i hwalk
      rw [eq_of_walk_ofNames hne hnames hwalk, Bool.or_eq_true, isDirAt_iff h,
        or_iff_right hne] at hpresent
      rcases hpresent with ⟨f, hf, hpre, -⟩ | hfile
      · exact ⟨f, hf, hpre⟩
      · obtain ⟨content, hcontent⟩ := Option.isSome_iff_exists.mp hfile
        exact ⟨_, (file?_eq_some_iff h).mp hcontent, List.prefix_refl _⟩
    · cases hpresent
  · rintro ⟨f, hf, hpre⟩
    rw [present, walk_ofNames h hne hf hpre]
    by_cases heq : names = f.1
    · have hfile : t.file? names = some f.2 := (file?_eq_some_iff h).mpr (heq ▸ hf)
      simp [hfile]
    · simp [isDirAt_of_below h hf hpre heq]

/-! ### One directory -/

theorem nameTowards?_eq_some_iff {other : List Raw} {s : Raw} :
    nameTowards? place other = some s ↔ place ++ [s] <+: other := by
  rw [nameTowards?]
  split
  · rename_i hpre
    obtain ⟨rest, rfl⟩ := List.isPrefixOf_iff_prefix.mp hpre
    rw [List.drop_left, List.prefix_append_right_inj]
    cases rest <;> simp [eq_comm]
  · rename_i hpre
    refine iff_of_false nofun fun h => hpre (List.isPrefixOf_iff_prefix.mpr ?_)
    exact (List.prefix_append _ _).trans h

theorem mem_namesIn (h : t.IsTidy) {s : Raw} :
    s ∈ t.namesIn place ↔ ∃ f ∈ t.files, place ++ [s] <+: f.1 := by
  change s ∈ (_ ∪ [] : List Raw) ↔ _
  simp only [List.mem_union_iff, List.not_mem_nil, or_false, List.mem_filterMap, List.mem_append,
    List.mem_map, nameTowards?_eq_some_iff]
  constructor
  · rintro ⟨other, hd | ⟨f, hf, rfl⟩, hpre⟩
    · obtain ⟨f, hf, hdf, -⟩ := h.inhabited other hd
      exact ⟨f, hf, hpre.trans hdf⟩
    · exact ⟨f, hf, hpre⟩
  · rintro ⟨f, hf, hpre⟩
    exact ⟨f.1, .inr ⟨f, hf, rfl⟩, hpre⟩

/-- The places one name further than a directory. -/
def placesIn (t : Tree) (place : List Raw) : List (List Raw) :=
  (t.namesIn place).map fun s => place ++ [s]

theorem nodup_placesIn : (t.placesIn place).Nodup := by
  refine List.Nodup.map (fun s s' heq => ?_) (List.Nodup.union _ List.nodup_nil)
  exact List.singleton_injective (List.append_cancel_left heq)

theorem mem_placesIn (h : t.IsTidy) {c : List Raw} :
    c ∈ t.placesIn place ↔
      c.length = place.length + 1 ∧ place <+: c ∧ ∃ f ∈ t.files, c <+: f.1 := by
  rw [placesIn, List.mem_map]
  constructor
  · rintro ⟨s, hs, rfl⟩
    exact ⟨by simp, List.prefix_append _ _, (mem_namesIn h).mp hs⟩
  · rintro ⟨hlength, ⟨rest, rfl⟩, hfile⟩
    obtain ⟨s, rfl⟩ := List.length_eq_one_iff.mp (by simpa using hlength)
    exact ⟨s, (mem_namesIn h).mpr hfile, rfl⟩

theorem readDir_ofNames (h : t.IsTidy) (hne : names ≠ []) (hf : f ∈ t.files) (hpre : names <+: f.1)
    (hproper : names ≠ f.1) : t.readDir (.ofNames names) = .ok (t.namesIn names) := by
  refine Fallible.bind_eq_ok.mpr ⟨names, walk_ofNames h hne hf hpre, ?_⟩
  rw [if_pos (isDirAt_of_below h hf hpre hproper)]
  rfl

/-! ### The walk through directories -/

/-- The places of the files at a place or below it. -/
def filesBelow (t : Tree) (place : List Raw) : List (List Raw) :=
  (t.files.map (·.1)).filter place.isPrefixOf

theorem mem_filesBelow {place' : List Raw} :
    place' ∈ t.filesBelow place ↔ (∃ f ∈ t.files, f.1 = place') ∧ place <+: place' := by
  rw [filesBelow, List.mem_filter, List.mem_map, List.isPrefixOf_iff_prefix]

theorem nodup_filesBelow (h : t.IsTidy) : (t.filesBelow place).Nodup := h.distinct.filter _

/-- The directories among what a directory holds. -/
def dirsIn (t : Tree) (place : List Raw) : List (List Raw) :=
  (t.placesIn place).filter fun c => t.isDir (.ofNames c)

/-- The files among what a directory holds. -/
def filesIn (t : Tree) (place : List Raw) : List (List Raw) :=
  (t.placesIn place).filter fun c => !t.isDir (.ofNames c)

theorem isName_of_mem_placesIn (h : t.IsTidy) {c : List Raw} (hc : c ∈ t.placesIn place) :
    c ≠ [] ∧ ∀ s ∈ c, IsName s := by
  obtain ⟨hlength, -, f, hf, hpre⟩ := (mem_placesIn h).mp hc
  exact ⟨List.ne_nil_of_length_pos (by omega), fun s hs => h.isName f hf s (hpre.subset hs)⟩

theorem mem_dirsIn (h : t.IsTidy) {c : List Raw} :
    c ∈ t.dirsIn place ↔ c ∈ t.placesIn place ∧ ∃ f ∈ t.files, c <+: f.1 ∧ c ≠ f.1 := by
  rw [dirsIn, List.mem_filter]
  refine and_congr_right fun hc => ?_
  obtain ⟨hne, hnames⟩ := isName_of_mem_placesIn h hc
  exact isDir_ofNames h hne hnames

theorem mem_filesIn (h : t.IsTidy) {c : List Raw} :
    c ∈ t.filesIn place ↔ c ∈ t.placesIn place ∧ ∃ f ∈ t.files, f.1 = c := by
  rw [filesIn, List.mem_filter]
  refine and_congr_right fun hc => ?_
  obtain ⟨hne, hnames⟩ := isName_of_mem_placesIn h hc
  obtain ⟨-, -, f, hf, hpre⟩ := (mem_placesIn h).mp hc
  rw [Bool.not_eq_true', ← Bool.not_eq_true, isDir_ofNames h hne hnames]
  constructor
  · exact fun hnodir => ⟨f, hf, by_contra fun hne => hnodir ⟨f, hf, hpre, Ne.symm hne⟩⟩
  · rintro ⟨g, hg, rfl⟩ ⟨f, hf, hpre, hproper⟩
    exact hproper (h.leaf g hg f hf hpre)

/-- What goes on from two of the places in a directory goes on from one. -/
theorem eq_of_mem_placesIn (h : t.IsTidy) {c c' place' : List Raw} (hc : c ∈ t.placesIn place)
    (hc' : c' ∈ t.placesIn place) (hpre : c <+: place') (hpre' : c' <+: place') : c = c' := by
  have hlength : c.length = c'.length :=
    ((mem_placesIn h).mp hc).1.trans ((mem_placesIn h).mp hc').1.symm
  exact (List.prefix_of_prefix_length_le hpre hpre' hlength.le).eq_of_length hlength

/-- No file is come across twice below a directory. -/
theorem nodup_filesIn_append (h : t.IsTidy) :
    (t.filesIn place ++ (t.dirsIn place).reverse.flatMap t.filesBelow).Nodup := by
  have hfiles : (t.filesIn place).Nodup := nodup_placesIn.filter _
  have hdirs : (t.dirsIn place).Nodup := nodup_placesIn.filter _
  refine hfiles.append (List.nodup_flatMap.mpr ⟨fun c _ => nodup_filesBelow h, ?_⟩) ?_
  · refine (List.nodup_reverse.mpr hdirs).imp_of_mem fun hc hc' hne => ?_
    rw [List.mem_reverse] at hc hc'
    intro place' hbelow hbelow'
    exact hne (eq_of_mem_placesIn h ((mem_dirsIn h).mp hc).1 ((mem_dirsIn h).mp hc').1
      (mem_filesBelow.mp hbelow).2 (mem_filesBelow.mp hbelow').2)
  · intro place' hfile hbelow
    obtain ⟨c, hc, hbelow⟩ := List.mem_flatMap.mp hbelow
    obtain ⟨hplace, g, hg, rfl⟩ := (mem_filesIn h).mp hfile
    obtain ⟨hcplace, f, hf, hpre, hproper⟩ := (mem_dirsIn h).mp (List.mem_reverse.mp hc)
    obtain rfl := eq_of_mem_placesIn h hcplace hplace (mem_filesBelow.mp hbelow).2
      (List.prefix_refl _)
    exact hproper (h.leaf g hg f hf hpre)

/-- The files below a directory are those in it and those below the directories in it. -/
theorem filesBelow_perm (h : t.IsTidy) (hdir : ∃ f ∈ t.files, place <+: f.1 ∧ place ≠ f.1) :
    (t.filesIn place ++ (t.dirsIn place).reverse.flatMap t.filesBelow).Perm
      (t.filesBelow place) := by
  refine (List.perm_ext_iff_of_nodup (nodup_filesIn_append h) (nodup_filesBelow h)).mpr fun place' => ?_
  rw [List.mem_append, List.mem_flatMap, mem_filesBelow]
  constructor
  · rintro (hfile | ⟨c, hc, hbelow⟩)
    · obtain ⟨hplace, hfile⟩ := (mem_filesIn h).mp hfile
      exact ⟨hfile, ((mem_placesIn h).mp hplace).2.1⟩
    · obtain ⟨hfile, hpre⟩ := mem_filesBelow.mp hbelow
      have hplace := ((mem_dirsIn h).mp (List.mem_reverse.mp hc)).1
      exact ⟨hfile, ((mem_placesIn h).mp hplace).2.1.trans hpre⟩
  · rintro ⟨⟨f, hf, rfl⟩, rest, hrest⟩
    cases rest with
    | nil =>
        -- The directory itself is no file.
        obtain ⟨g, hg, hpre, hproper⟩ := hdir
        rw [List.append_nil] at hrest
        exact absurd (hrest.trans (h.leaf f hf g hg (hrest ▸ hpre))) hproper
    | cons s rest =>
        have hpre : place ++ [s] <+: f.1 := ⟨rest, by simpa using hrest⟩
        have hplace : place ++ [s] ∈ t.placesIn place :=
          (mem_placesIn h).mpr ⟨by simp, List.prefix_append _ _, f, hf, hpre⟩
        by_cases heq : f.1 = place ++ [s]
        · exact .inl ((mem_filesIn h).mpr ⟨heq ▸ hplace, f, hf, rfl⟩)
        · refine .inr ⟨place ++ [s], List.mem_reverse.mpr ((mem_dirsIn h).mpr ⟨hplace, ?_⟩), ?_⟩
          · exact ⟨f, hf, hpre, Ne.symm heq⟩
          · exact mem_filesBelow.mpr ⟨⟨f, hf, rfl⟩, hpre⟩

theorem foldl_note (paths : List Path) (l : Listing) :
    paths.foldl t.note l =
      ⟨l.found ++ paths.filter (!t.isDir ·), (paths.filter t.isDir).reverse ++ l.pending⟩ := by
  induction paths generalizing l with
  | nil => simp
  | cons p paths ih => by_cases hdir : t.isDir p = true <;> simp [ih, note, hdir]

/-- Reading a directory finds the files in it and puts the directories in it before the others. -/
theorem readNext_ofNames (h : t.IsTidy) (hne : names ≠ []) (hf : f ∈ t.files)
    (hpre : names <+: f.1) (hproper : names ≠ f.1) (found rest : List Path) :
    t.readNext ⟨found, .ofNames names :: rest⟩ =
      .ok (.inl ⟨found ++ (t.filesIn names).map .ofNames,
        (t.dirsIn names).reverse.map .ofNames ++ rest⟩) := by
  have hnames : ∀ s ∈ names, IsName s := fun s hs => h.isName f hf s (hpre.subset hs)
  have hjoin : ((t.namesIn names).map fun name => (Path.ofNames names).join ⟨name⟩) =
      (t.placesIn names).map .ofNames := by
    rw [placesIn, List.map_map]
    refine List.map_congr_left fun s hs => ?_
    have hplace : names ++ [s] ∈ t.placesIn names := List.mem_map_of_mem hs
    exact Path.join_ofNames hne hnames ((isName_of_mem_placesIn h hplace).2 s (by simp))
  refine Fallible.bind_eq_ok.mpr ⟨_, readDir_ofNames h hne hf hpre hproper, ?_⟩
  simp only [hjoin, foldl_note, List.filter_map, List.map_reverse]
  rfl

theorem repeatM_of_next {l l' : Listing} (h : t.readNext l = .ok (.inl l')) :
    repeatM t.readNext l = repeatM t.readNext l' := by
  rw [repeatM_eq_of_monadTail l, repeatM.body, h]
  rfl

theorem repeatM_of_done {l l' : Listing} (h : t.readNext l = .ok (.inr l')) :
    repeatM t.readNext l = .ok l' := by
  rw [repeatM_eq_of_monadTail l, repeatM.body, h]
  rfl

/-- Wherever the places stand in the walk, it finds just these files before it comes to what
waits behind them. -/
def Yields (t : Tree) (places files : List (List Raw)) : Prop :=
  ∀ found rest, repeatM t.readNext ⟨found, places.map .ofNames ++ rest⟩ =
    repeatM t.readNext ⟨found ++ files.map .ofNames, rest⟩

/-- Directories yield what each of them does. -/
theorem exists_yields_of_forall {places : List (List Raw)}
    (h : ∀ c ∈ places, ∃ files, t.Yields [c] files ∧ files.Perm (t.filesBelow c)) :
    ∃ files, t.Yields places files ∧ files.Perm (places.flatMap t.filesBelow) := by
  induction places with
  | nil => exact ⟨[], fun found rest => by simp, .refl _⟩
  | cons c places ih =>
      obtain ⟨hc, hplaces⟩ := List.forall_mem_cons.mp h
      obtain ⟨files, hyields, hperm⟩ := hc
      obtain ⟨more, hmore, hpermore⟩ := ih hplaces
      refine ⟨files ++ more, fun found rest => ?_, hperm.append hpermore⟩
      have hfirst := hyields found (places.map .ofNames ++ rest)
      rw [List.map_cons, List.map_append, ← List.append_assoc, ← hmore, ← hfirst]
      rfl

/-- **The walk comes to an end below a directory**, with the files that are there.  The
induction is on how far down they are. -/
theorem exists_yields (h : t.IsTidy) {n : Nat} (hne : names ≠ [])
    (hdir : ∃ f ∈ t.files, names <+: f.1 ∧ names ≠ f.1)
    (hdepth : ∀ f ∈ t.files, f.1.length ≤ names.length + n) :
    ∃ files, t.Yields [names] files ∧ files.Perm (t.filesBelow names) := by
  induction n generalizing names with
  | zero =>
      obtain ⟨f, hf, hpre, hproper⟩ := hdir
      exact absurd (hpre.eq_of_length_le (hdepth f hf)) hproper
  | succ n ih =>
      have hdirs : ∀ c ∈ (t.dirsIn names).reverse,
          ∃ files, t.Yields [c] files ∧ files.Perm (t.filesBelow c) := by
        intro c hc
        obtain ⟨hplace, hfile⟩ := (mem_dirsIn h).mp (List.mem_reverse.mp hc)
        have hlength := ((mem_placesIn h).mp hplace).1
        refine ih (isName_of_mem_placesIn h hplace).1 hfile fun f hf => ?_
        have := hdepth f hf
        omega
      obtain ⟨files, hyields, hperm⟩ := exists_yields_of_forall hdirs
      refine ⟨t.filesIn names ++ files, fun found rest => ?_,
        (hperm.append_left _).trans (filesBelow_perm h hdir)⟩
      obtain ⟨f, hf, hpre, hproper⟩ := hdir
      have hnext := readNext_ofNames h hne hf hpre hproper found rest
      rw [List.map_append, ← List.append_assoc, ← hyields]
      exact repeatM_of_next hnext

/-- **The walk lists the files whose places go on from the directory's**, in the order of their
components. -/
theorem list_ofNames (h : t.IsTidy) (hne : names ≠ []) (hf : f ∈ t.files) (hpre : names <+: f.1)
    (hproper : names ≠ f.1) :
    t.list (.ofNames names) = .ok (((t.files.filter fun g => names.isPrefixOf g.1).map fun g =>
      Path.ofNames g.1).mergeSort fun p q => (compare p.components q.components).isLE) := by
  have hdepth : ∀ g ∈ t.files, g.1.length ≤ names.length + (t.files.map (·.1.length)).sum := by
    intro g hg
    have hsum := List.le_sum_of_mem (List.mem_map_of_mem (f := fun g => g.1.length) hg)
    omega
  obtain ⟨files, hyields, hperm⟩ := exists_yields h hne ⟨f, hf, hpre, hproper⟩ hdepth
  have hlist : t.list (.ofNames names) = .ok ((files.map Path.ofNames).mergeSort
      fun p q => (compare p.components q.components).isLE) := by
    refine Fallible.bind_eq_ok.mpr ⟨⟨files.map .ofNames, []⟩, ?_, rfl⟩
    exact (hyields [] []).trans (repeatM_of_done rfl)
  have hbelow : (t.filesBelow names).map .ofNames =
      (t.files.filter fun g => names.isPrefixOf g.1).map fun g => Path.ofNames g.1 := by
    rw [filesBelow, List.filter_map, List.map_map]
    rfl
  rw [hlist, ← hbelow]
  refine congrArg _ (Path.eq_of_perm_of_pairwise (fun p hp => ?_) ?_
    (Path.pairwise_mergeSort _) (Path.pairwise_mergeSort _))
  · obtain ⟨place, hplace, rfl⟩ := List.mem_map.mp (List.mem_mergeSort.mp hp)
    obtain ⟨⟨g, hg, rfl⟩, -⟩ := mem_filesBelow.mp (hperm.mem_iff.mp hplace)
    exact ⟨g.1, h.isName g hg, rfl⟩
  · exact (List.mergeSort_perm _ _).trans ((hperm.map _).trans (List.mergeSort_perm _ _).symm)

/-- **A tidy tree shows its files.** -/
theorem IsTidy.shows_source (h : t.IsTidy) : t.source.Shows t.files where
  present := present_ofNames h
  isDir := isDir_ofNames h
  top := by
    have htop : t.present (.ofNames []) = false := by
      simp [present, walk, Path.ofNames, joinSlash]
    exact fun hfile => Bool.false_ne_true (htop.symm.trans hfile.1)
  read _ hf := read_ofNames h hf
  list := by
    rintro names hne ⟨f, hf, hpre, hproper⟩
    exact ⟨_, list_ofNames h hne hf hpre hproper, List.mergeSort_perm _ _,
      Path.pairwise_mergeSort _⟩
  depth := rfl

end Tree

end Schemata
