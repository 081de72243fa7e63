/-
Files that a batch selects by their extension.

What the settings call an extension is any text, while the extension of a file is what follows
the last dot of its name.  No dot stands in the latter.  So an extension of the settings that has
a dot in it selects no file at all, and the check of the settings asks only about a dot at its
front.  Any other extension selects just the files whose name is something, a dot and the
extension, and a batch takes on all of these that its directories list.
-/
import Mathlib.Data.List.TakeWhile
import Schemata.Proofs.Batch.Modes
import Schemata.Proofs.Path.Segments

namespace Schemata

/-! ### The extension of a name -/

namespace Path

variable {name ext stem : Raw}

theorem takeWhile_append_of_no_dot {front : Raw} (h : dot ∉ front) (rest : Raw) :
    (front ++ dot :: rest).takeWhile (· ≠ dot) = front := by
  have hfront : ∀ b ∈ front, decide (b ≠ dot) = true := fun b hb =>
    decide_eq_true fun heq => h (heq ▸ hb)
  rw [List.takeWhile_append_of_pos hfront, List.takeWhile_cons_of_neg (by simp), List.append_nil]

theorem dropWhile_append_of_no_dot {front : Raw} (h : dot ∉ front) (rest : Raw) :
    (front ++ dot :: rest).dropWhile (· ≠ dot) = dot :: rest := by
  have hfront : ∀ b ∈ front, decide (b ≠ dot) = true := fun b hb =>
    decide_eq_true fun heq => h (heq ▸ hb)
  rw [List.dropWhile_append_of_pos hfront, List.dropWhile_cons_of_neg (by simp)]

/-- What follows the last dot is the extension. -/
theorem extensionOf?_of_stem (hext : dot ∉ ext) (hstem : stem ≠ []) :
    extensionOf? (stem ++ dot :: ext) = some ext := by
  have hreverse : (stem ++ dot :: ext).reverse = ext.reverse ++ dot :: stem.reverse := by simp
  have hnodot : dot ∉ ext.reverse := by simpa using hext
  have hlong : ¬ (dot :: stem.reverse).length ≤ 1 := by simpa using hstem
  rw [extensionOf?, hreverse, takeWhile_append_of_no_dot hnodot,
    dropWhile_append_of_no_dot hnodot, if_neg hlong, List.reverse_reverse]

/-- Before an extension stand a dot and something before that. -/
theorem exists_stem_of_extensionOf? (h : extensionOf? name = some ext) :
    dot ∉ ext ∧ ∃ stem ≠ [], name = stem ++ dot :: ext := by
  have hcut : name.reverse.takeWhile (· ≠ dot) ++ name.reverse.dropWhile (· ≠ dot) =
      name.reverse := List.takeWhile_append_dropWhile
  have hdot := List.head?_dropWhile_not (· ≠ dot) name.reverse
  have hbefore : dot ∉ name.reverse.takeWhile (· ≠ dot) := fun hmem => by
    simpa using List.mem_takeWhile_imp hmem
  rw [extensionOf?] at h
  generalize name.reverse.takeWhile (· ≠ dot) = tail at *
  generalize name.reverse.dropWhile (· ≠ dot) = head at *
  split_ifs at h with hshort
  obtain rfl := Option.some.inj h
  rcases head with _ | ⟨b, before⟩
  · exact absurd (Nat.zero_le 1) hshort
  obtain rfl : b = dot := by simpa using hdot
  refine ⟨by simpa using hbefore, before.reverse, ?_, ?_⟩
  · rintro hempty
    simp_all
  · rw [← List.reverse_inj, ← hcut]
    simp

/-- **The extension of a name is what follows its last dot, if something stands before it.** -/
theorem extensionOf?_eq_some_iff :
    extensionOf? name = some ext ↔ dot ∉ ext ∧ ∃ stem ≠ [], name = stem ++ dot :: ext := by
  constructor
  · exact exists_stem_of_extensionOf?
  · rintro ⟨hext, stem, hstem, rfl⟩
    exact extensionOf?_of_stem hext hstem

end Path

/-! ### The files of a batch -/

/-- **A path is selected if its file name is something, a dot and the extension of the settings,
and no dot stands in that extension.** -/
theorem Config.matchesExtension_iff {config : Config} {p : Path} :
    config.matchesExtension p = true ↔
      '.' ∉ config.extension.toList ∧
        ∃ stem ≠ [], p.fileName? = some (stem ++ dot :: (config.extension : Raw)) := by
  have hextension : config.matchesExtension p = true ↔ ∃ name,
      p.fileName? = some name ∧ Path.extensionOf? name = some (config.extension : Raw) := by
    rw [matchesExtension, decide_eq_true_iff, Path.extension?, Option.bind_eq_some_iff]
  rw [hextension]
  constructor
  · rintro ⟨name, hname, hext⟩
    obtain ⟨hdot, stem, hstem, rfl⟩ := Path.extensionOf?_eq_some_iff.mp hext
    exact ⟨mt Raw.dot_mem_ofString.mpr hdot, stem, hstem, hname⟩
  · rintro ⟨hdot, stem, hstem, hname⟩
    have hdot := mt Raw.dot_mem_ofString.mp hdot
    exact ⟨_, hname, Path.extensionOf?_eq_some_iff.mpr ⟨hdot, stem, hstem, rfl⟩⟩

namespace Batch

variable {source : Source} {config : Config}

/-- A selected file that a root lists is taken on. -/
theorem mem_plan_of_listed {roots : List Path} {root p : Path} {paths : List Path}
    (hroot : root ∈ roots) (hpresent : source.present root = true)
    (hdir : source.isDir root = true) (hlist : source.list root = .ok paths) (hp : p ∈ paths)
    (hext : config.matchesExtension p = true) :
    Item.file ⟨root.relativeName p, p, root⟩ ∈ plan ⟨source, config⟩ roots := by
  refine mem_plan hroot ?_
  rw [itemsOf_directory hpresent hdir hlist]
  exact List.mem_map.mpr ⟨p, List.mem_filter.mpr ⟨hp, hext⟩, rfl⟩

end Batch

/-- **An extension without a dot in it selects its files.**  A path whose file name is
something, a dot and the extension of the settings is selected, if no dot stands in that
extension.  A batch takes the file on whenever one of its directories lists it, and where no
error is kept it is in the set. -/
theorem compileAll_selects (source : Source) {config : Config} {stem : Raw} {p : Path}
    (hdot : '.' ∉ config.extension.toList) (hstem : stem ≠ [])
    (hname : p.fileName? = some (stem ++ dot :: (config.extension : Raw))) :
    config.matchesExtension p = true ∧
    ∀ (roots : List Path) (root : Path) (paths : List Path), root ∈ roots →
      source.present root = true → source.isDir root = true → source.list root = .ok paths →
      p ∈ paths →
      Batch.Item.file ⟨root.relativeName p, p, root⟩ ∈ Batch.plan ⟨source, config⟩ roots ∧
      ∀ set : DescriptorSet, compileAll source config roots = .ok ⟨set, []⟩ →
        root.relativeName p ∈ set.names := by
  have hext : config.matchesExtension p = true :=
    Config.matchesExtension_iff.mpr ⟨hdot, stem, hstem, hname⟩
  refine ⟨hext, ?_⟩
  intro roots root paths hroot hpresent hdir hlist hp
  have hplan := Batch.mem_plan_of_listed hroot hpresent hdir hlist hp hext
  refine ⟨hplan, ?_⟩
  intro set hset
  obtain ⟨-, hrun⟩ := Batch.compileAll_clean_iff.mp hset
  exact Batch.name_mem_of_foldlM hplan hrun

/-- A directory with one file, whose name has two dots. -/
def versioned : Table := .ofList [(⟨"d/a.v1.proto"⟩, importsOf [])]

/-- By what follows the last dot the file is selected. -/
theorem versioned_selects :
    let config := Config.default
    let set : DescriptorSet := ⟨[importing "a.v1.proto" []]⟩
    '.' ∉ config.extension.toList ∧
    (⟨"d/a.v1.proto"⟩ : Path).fileName? = some ("a.v1" ++ dot :: (config.extension : Raw)) ∧
    config.matchesExtension ⟨"d/a.v1.proto"⟩ = true ∧
    compileAll versioned.source config [⟨"d"⟩] = .ok ⟨set, []⟩ ∧
    (⟨"d"⟩ : Path).relativeName ⟨"d/a.v1.proto"⟩ ∈ set.names := by
  intro config set
  have hdot : '.' ∉ config.extension.toList := by decide
  have hname : (⟨"d/a.v1.proto"⟩ : Path).fileName? =
      some ("a.v1" ++ dot :: (config.extension : Raw)) := by decide +kernel
  have hset : compileAll versioned.source config [⟨"d"⟩] = .ok ⟨set, []⟩ :=
    Fallible.toOption_eq_some.mp (by decide +kernel)
  obtain ⟨hext, htaken⟩ := compileAll_selects versioned.source hdot (by decide +kernel) hname
  obtain ⟨-, hnames⟩ := htaken [⟨"d"⟩] ⟨"d"⟩ [⟨"d/a.v1.proto"⟩] (by simp) (by decide +kernel)
    (by decide +kernel) (Fallible.toOption_eq_some.mp (by decide +kernel)) (by simp)
  exact ⟨hdot, hname, hext, hset, hnames set hset⟩

/-- With a dot in it an extension passes for a good one, and the file whose name ends in it is
passed over without an error. -/
theorem versioned_is_skipped :
    let config : Config := { Config.default with extension := "v1.proto" }
    config.validate = .ok () ∧
    (⟨"d/a.v1.proto"⟩ : Path).fileName? = some ("a" ++ dot :: (config.extension : Raw)) ∧
    versioned.source.list ⟨"d"⟩ = .ok [⟨"d/a.v1.proto"⟩] ∧
    config.matchesExtension ⟨"d/a.v1.proto"⟩ = false ∧
    compileAll versioned.source config [⟨"d"⟩] = .ok ⟨.empty, []⟩ := by
  intro config
  exact ⟨Fallible.toOption_eq_some.mp (by decide), by decide +kernel,
    Fallible.toOption_eq_some.mp (by decide +kernel), by decide +kernel,
    Fallible.toOption_eq_some.mp (by decide +kernel)⟩

end Schemata
