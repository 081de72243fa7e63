/-
Normal forms are canonical.

A path that is normalised is written in one way: the root or a number of `..`, and then names.
So normalising it again changes nothing, and what is joined to it goes on from where the path
itself would have gone on.

A key has the form of a relative path, and it is made by a walk of its own, over segments and
not over components.  The two walks agree wherever both can be taken: the key of a relative path
is that path in normal form.  What holds of normal forms therefore holds of keys.
-/
import Schemata.Proofs.Path.Lead

namespace Schemata

namespace IsNormal

variable {cs : List Component}

/-- A normal form without a root climbs so many times and then goes on by names. -/
theorem exists_climbs (h : IsNormal cs) (hroot : .root ∉ cs) :
    ∃ (climbs : Nat) (names : List Raw), (∀ s ∈ names, IsName s) ∧
      cs = List.replicate climbs .up ++ names.map .name := by
  have hup : ∀ c ∈ leadOf cs, c = .up := by
    intro c hc
    have hmem : c ∈ cs := (List.takeWhile_sublist _).subset hc
    have hname : c.name?.isNone = true :=
      List.mem_takeWhile_imp (p := fun c : Component => c.name?.isNone) hc
    cases c with
    | root => exact absurd hmem hroot
    | here => exact (h.proper _ hmem).elim
    | up => rfl
    | name s => cases hname
  refine ⟨(leadOf cs).length, namesOf cs, h.isName_of_mem_namesOf, ?_⟩
  rw [← List.eq_replicate_of_mem hup]
  exact h.eq_leadOf_append

/-- A normal form with a root begins with it and goes on by names. -/
theorem exists_names (h : IsNormal cs) (hroot : .root ∈ cs) :
    ∃ names : List Raw, (∀ s ∈ names, IsName s) ∧ cs = .root :: names.map .name := by
  obtain ⟨before, after, rfl⟩ := List.append_of_mem hroot
  have hbefore : before = [] := by
    by_contra hne
    obtain ⟨c, hc⟩ := List.exists_mem_of_ne_nil before hne
    have hcross := (List.pairwise_append.mp h.ordered).2.2
    exact (hcross c hc .root List.mem_cons_self).1 rfl
  subst hbefore
  have hbehind : IsNormal ([.root] ++ after) := h
  obtain ⟨names, rfl, hnames⟩ := hbehind.names_behind ⟨_, List.mem_cons_self, nofun⟩
  exact ⟨names, hnames, rfl⟩

end IsNormal

namespace Path

/-! ### The form of a path in normal form -/

theorem root_mem_pushNormal {stack : List Component} (c : Component) (h : .root ∈ stack) :
    .root ∈ pushNormal stack c := by
  unfold pushNormal
  split
  · exact h
  · split
    · simpa using h
    · exact h
    · exact List.mem_cons_of_mem _ h
  · exact List.mem_cons_of_mem _ h

/-- The normal form of an absolute path begins at the root. -/
theorem root_mem_normalComponents {p : Path} (h : p.isAbsolute = true) :
    .root ∈ p.normalComponents := by
  have hwalk : ∀ (cs stack : List Component), .root ∈ stack →
      .root ∈ cs.foldl pushNormal stack := by
    intro cs
    induction cs with
    | nil => exact fun _ hroot => hroot
    | cons c cs ih => exact fun stack hroot => ih _ (root_mem_pushNormal c hroot)
  rw [normalComponents_eq, List.mem_reverse, anchor, if_pos h]
  exact hwalk _ _ List.mem_cons_self

/-- The normal form of a relative path has no root. -/
theorem root_notMem_normalComponents {p : Path} (h : p.isAbsolute = false) :
    .root ∉ p.normalComponents := by
  rw [normalComponents_eq, List.mem_reverse, anchor, if_neg (by simp [h])]
  exact fun hmem => List.not_mem_nil (root_mem_of_mem_walk hmem)

theorem map_raw_names (names : List Raw) :
    (names.map Component.name).map Component.raw = names := by
  rw [List.map_map]
  exact List.map_id names

theorem map_raw_climbs (climbs : Nat) (names : List Raw) :
    (List.replicate climbs Component.up ++ names.map Component.name).map Component.raw =
      List.replicate climbs [dot, dot] ++ names := by
  rw [List.map_append, List.map_replicate, map_raw_names]
  rfl

/-- Normalising changes nothing in a normal form. -/
theorem normalize_normalize (p : Path) : p.normalize.normalize = p.normalize :=
  normalize_eq_iff.mpr p.normalComponents_normalize

/-- What is joined to a path goes on from the normal form of the path. -/
theorem normalize_join (p q : Path) : (p.join q).normalize = (p.normalize.join q).normalize := by
  by_cases habs : q.isAbsolute = true
  · -- An absolute path leaves nothing of what it is joined to.
    rw [join, join, if_pos habs, if_pos habs]
  · have hrelative : q.isAbsolute = false := by simpa using habs
    refine normalize_eq_iff.mpr ?_
    rw [normalComponents_join p hrelative, normalComponents_join p.normalize hrelative,
      normalComponents_normalize]

/-- **Normal forms are canonical.**  An absolute path comes to the root and names, a relative one
to so many `..` and names; normalising again changes nothing, and a path joined to another may as
well be joined to its normal form. -/
theorem normalize_canonical (p : Path) :
    (p.isAbsolute = true → ∃ names : List Raw, (∀ s ∈ names, IsName s) ∧
      p.normalize.components = .root :: names.map .name ∧
      p.normalize.raw = slash :: joinSlash names) ∧
    (p.isAbsolute = false → ∃ (climbs : Nat) (names : List Raw), (∀ s ∈ names, IsName s) ∧
      p.normalize.components = List.replicate climbs .up ++ names.map .name ∧
      p.normalize.raw = joinSlash (List.replicate climbs [dot, dot] ++ names)) ∧
    p.normalize.normalize = p.normalize ∧
    ∀ q : Path, (p.join q).normalize = (p.normalize.join q).normalize := by
  have hnormal := p.isNormal_normalComponents
  refine ⟨fun habs => ?_, fun hrelative => ?_, p.normalize_normalize, p.normalize_join⟩
  · obtain ⟨names, hnames, heq⟩ := hnormal.exists_names (root_mem_normalComponents habs)
    refine ⟨names, hnames, p.components_normalize.trans heq, ?_⟩
    rw [normalize, heq, ofComponents, map_raw_names]
  · have hroot := root_notMem_normalComponents hrelative
    obtain ⟨climbs, names, hnames, heq⟩ := hnormal.exists_climbs hroot
    refine ⟨climbs, names, hnames, p.components_normalize.trans heq, ?_⟩
    rw [normalize, IsNormal.ofComponents_of_relative hroot, heq, map_raw_climbs]

/-- Dots, climbs above the front and climbs at the root. -/
example : (normalize ⟨"./a/..//../b/."⟩).text = "../b" ∧ (normalize ⟨"/../a"⟩).text = "/a" ∧
    (normalize (join ⟨"a/.."⟩ ⟨"../b"⟩)).text = "../b" ∧
      (normalize (join ⟨"a"⟩ ⟨"/b"⟩)).text = "/b" := by
  decide +kernel

end Path

/-! ### Keys -/

/-- A key is a path in normal form. -/
theorem normalize_importKey (path : String) :
    Path.normalize ⟨importKey path⟩ = ⟨importKey path⟩ := by
  rw [Path.normalize, normalComponents_importKey, ← importKey_eq_ofComponents]

/-- The segments of a key are so many `..` and then names. -/
theorem keySegments_eq_climbs (path : String) :
    ∃ (climbs : Nat) (names : List String), (∀ s ∈ names, IsName s) ∧
      keySegments path = List.replicate climbs ".." ++ names := by
  obtain ⟨climbs, names, hnames, heq⟩ :=
    (isNormal_keySegments path).exists_climbs (root_notMem_keySegments path)
  obtain ⟨ups, rest, hsplit, hups, hrest⟩ := List.map_eq_append_iff.mp heq
  have hclimb : ∀ s ∈ ups, s = ".." := by
    intro s hs
    have hup : keyComponent s = .up :=
      List.eq_of_mem_replicate (hups ▸ List.mem_map_of_mem hs)
    rw [keyComponent] at hup
    split_ifs at hup with heq
    exact heq
  have hname : ∀ s ∈ rest, IsName s := by
    intro s hs
    obtain ⟨t, ht, hst⟩ := List.mem_map.mp (hrest ▸ List.mem_map_of_mem hs)
    have hraw : (s : Raw) = t := by rw [← raw_keyComponent, ← hst, Component.raw]
    exact hraw ▸ hnames t ht
  refine ⟨ups.length, rest, hname, ?_⟩
  rw [hsplit, ← List.eq_replicate_of_mem hclimb]

/-- A relative path and its key have one normal form. -/
theorem normalComponents_eq_keySegments {path : String} (h : Path.isAbsolute ⟨path⟩ = false) :
    Path.normalComponents ⟨path⟩ = (keySegments path).map keyComponent := by
  rw [Path.normalComponents_eq, Path.anchor, if_neg (by simp [h]), map_keySegments]

/-- **The key of a relative path is its normal form.** -/
theorem normalize_eq_importKey {path : String} (h : Path.isAbsolute ⟨path⟩ = false) :
    Path.normalize ⟨path⟩ = ⟨importKey path⟩ := by
  rw [Path.normalize, normalComponents_eq_keySegments h, ← importKey_eq_ofComponents]

/-- The key of a key is the key. -/
theorem importKey_importKey (path : String) : importKey (importKey path) = importKey path := by
  have hkey := normalize_eq_importKey (isAbsolute_importKey path)
  rw [normalize_importKey path] at hkey
  exact Raw.ofString_injective (Path.ofRaw.inj hkey).symm

/-- A key is walked to where its path is. -/
theorem walk_segments_importKey (path : String) :
    Path.walk [] (segments (importKey path)) = Path.walk [] (segments path) := by
  have hkey : (keySegments (importKey path)).map keyComponent =
      (keySegments path).map keyComponent := by
    rw [← normalComponents_importKey (importKey path), importKey_importKey path,
      normalComponents_importKey path]
  rw [map_keySegments (importKey path), map_keySegments path, List.reverse_inj] at hkey
  exact hkey

/-- A slash between two texts cuts them apart. -/
theorem segments_text_append (a b : String) :
    segments (a ++ "/" ++ b : String) = segments a ++ segments b := by
  rw [Raw.ofString_append, Raw.ofString_append, show Raw.ofString "/" = [slash] from by decide,
    List.append_assoc, List.singleton_append, segments_append]

/-- What goes on from a path may as well go on from its key. -/
theorem importKey_append (a b : String) :
    importKey (a ++ "/" ++ b) = importKey (importKey a ++ "/" ++ b) := by
  have hwalk : (keySegments (a ++ "/" ++ b)).map keyComponent =
      (keySegments (importKey a ++ "/" ++ b)).map keyComponent := by
    rw [map_keySegments, map_keySegments, segments_text_append, segments_text_append,
      Path.walk_append,
      Path.walk_append, walk_segments_importKey]
  refine importKey_inj ?_
  rw [normalComponents_importKey, normalComponents_importKey, hwalk]

/-- **Keys are canonical.**  A key is so many `..` and names with slashes between them; the key of
a key is itself, and so is the path a table looks up for it; a path that goes on may as well go on
from its key; and the key of a relative path is what its normal form spells. -/
theorem importKey_canonical (path : String) :
    (∃ (climbs : Nat) (names : List String), (∀ s ∈ names, IsName s) ∧
      importKey path = "/".intercalate (List.replicate climbs ".." ++ names)) ∧
    importKey (importKey path) = importKey path ∧
    Path.normalize ⟨importKey path⟩ = ⟨importKey path⟩ ∧
    (∀ more : String, importKey (path ++ "/" ++ more) = importKey (importKey path ++ "/" ++ more)) ∧
    (Path.isAbsolute ⟨path⟩ = false →
      joinSlash ((Path.normalize ⟨path⟩).components.map Component.raw) = importKey path ∧
      Path.normalize ⟨path⟩ = ⟨importKey path⟩) := by
  refine ⟨?_, importKey_importKey path, normalize_importKey path, importKey_append path,
    fun hrelative => ?_⟩
  · obtain ⟨climbs, names, hnames, heq⟩ := keySegments_eq_climbs path
    exact ⟨climbs, names, hnames, congrArg "/".intercalate heq⟩
  · refine ⟨?_, normalize_eq_importKey hrelative⟩
    rw [Path.components_normalize, normalComponents_eq_keySegments hrelative, map_raw_keyComponent,
      importKey, ofString_intercalate]

/-- The slash at the front goes, and what climbs above the front stays. -/
example : importKey "/a/.//b/../c" = "a/c" ∧ importKey "a/../../b/" = "../b" ∧
    importKey "a/.." = "" := by
  decide +kernel

end Schemata
