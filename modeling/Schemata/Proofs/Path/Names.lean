/-
Paths made of names.

Names with slashes between them are a path that leads down and never back.  Its components
are its names, it is its own normal form, and going on from it and taking its parent add and
remove a name at the end.  A relative path that does not climb in its normal form normalises
to such a path.
-/
import Mathlib.Data.List.DropRight
import Schemata.Proofs.Path.Normal

namespace Schemata

namespace Path

variable {names names' : List Raw} {s : Raw}

/-- Joined names are walked one by one. -/
theorem walk_joinSlash (stack : List Component) (hnames : ∀ s ∈ names, IsName s) :
    walk stack (segments (joinSlash names)) = (names.map Component.name).reverse ++ stack := by
  by_cases hne : names = []
  · subst hne
    rfl
  · rw [segments_joinSlash hne fun s hs => (hnames s hs).no_slash, walk_names stack hnames]

theorem joinSlash_inj (hnames : ∀ s ∈ names, IsName s) (hnames' : ∀ s ∈ names', IsName s)
    (h : joinSlash names = joinSlash names') : names = names' := by
  have hwalk := walk_joinSlash [] hnames
  rw [h, walk_joinSlash [] hnames', List.append_nil, List.append_nil] at hwalk
  have hmap : names'.map Component.name = names.map Component.name :=
    List.reverse_injective hwalk
  exact (List.map_injective_iff.mpr (fun _ _ => Component.name.inj) hmap).symm

/-- The path that leads down by names. -/
def ofNames (names : List Raw) : Path := ⟨joinSlash names⟩

theorem isNormal_names (hnames : ∀ s ∈ names, IsName s) : IsNormal (names.map .name) := by
  simpa using isNormal_nil.append_names hnames

theorem ofComponents_names (names : List Raw) :
    ofComponents (names.map .name) = ofNames names := by
  rw [IsNormal.ofComponents_of_relative (by simp), List.map_map]
  exact congrArg ofNames (List.map_id names)

theorem components_ofNames (hnames : ∀ s ∈ names, IsName s) :
    (ofNames names).components = names.map .name := by
  rw [← ofComponents_names, (isNormal_names hnames).components_ofComponents]

theorem normalComponents_ofNames (hnames : ∀ s ∈ names, IsName s) :
    (ofNames names).normalComponents = names.map .name := by
  rw [← ofComponents_names, (isNormal_names hnames).normalComponents_ofComponents]

/-- Joined names are a relative path. -/
theorem isAbsolute_joinSlash (hnames : ∀ s ∈ names, IsName s) :
    isAbsolute ⟨joinSlash names⟩ = false := by
  rw [← ofNames, ← ofComponents_names]
  exact (isNormal_names hnames).isAbsolute_ofComponents (by simp)

theorem segments_ofNames (hne : names ≠ []) (hnames : ∀ s ∈ names, IsName s) :
    segments (ofNames names).raw = names :=
  segments_joinSlash hne fun s hs => (hnames s hs).no_slash

theorem raw_ofNames_ne_nil (hne : names ≠ []) (hnames : ∀ s ∈ names, IsName s) :
    (ofNames names).raw ≠ [] := by
  intro hraw
  have hseg := segments_ofNames hne hnames
  rw [hraw] at hseg
  exact (hnames [] (hseg ▸ List.mem_singleton_self _)).ne_empty rfl

/-- What a joined path holds, its names hold, but for the slashes. -/
theorem exists_mem_of_mem_joinSlash {b : UInt8} (hb : b ≠ slash)
    (h : b ∈ joinSlash names) : ∃ s ∈ names, b ∈ s := by
  induction names with
  | nil => simp [joinSlash] at h
  | cons s names ih =>
      rcases names with _ | ⟨t, names⟩
      · rw [joinSlash, List.intercalate_singleton] at h
        exact ⟨s, List.mem_cons_self, h⟩
      · rw [joinSlash, List.intercalate_cons_cons, List.mem_append, List.mem_append] at h
        rcases h with (h | h) | h
        · exact ⟨s, List.mem_cons_self, h⟩
        · exact absurd (List.mem_singleton.mp h) hb
        · obtain ⟨r, hr, hbr⟩ := ih h
          exact ⟨r, List.mem_cons_of_mem _ hr, hbr⟩

/-! ### Going on and going back by a name -/

/-- No slash stands at the end of joined names. -/
theorem getLast?_ofNames (hne : names ≠ []) (hnames : ∀ s ∈ names, IsName s) :
    (ofNames names).raw.getLast? ≠ some slash := by
  intro hlast
  obtain ⟨bs, hbs⟩ := List.getLast?_eq_some_iff.mp hlast
  have hseg := segments_ofNames hne hnames
  rw [hbs, segments_append] at hseg
  have hempty : [] ∈ names := hseg ▸ List.mem_append_right _ (List.mem_singleton_self _)
  exact (hnames [] hempty).ne_empty rfl

/-- One more name is joined by a slash. -/
theorem joinSlash_concat (hne : names ≠ []) (s : Raw) :
    joinSlash (names ++ [s]) = joinSlash names ++ slash :: s := by
  induction names with
  | nil => exact absurd rfl hne
  | cons t names ih =>
      rcases names with _ | ⟨u, names⟩
      · simp [joinSlash]
      · rw [joinSlash, List.cons_append, List.cons_append, List.intercalate_cons_cons,
          show [slash].intercalate (u :: (names ++ [s])) = _ from ih (by simp), joinSlash,
          joinSlash,
          List.intercalate_cons_cons, List.append_assoc (t ++ [slash])]

theorem join_ofNames (hne : names ≠ []) (hnames : ∀ s ∈ names, IsName s) (hs : IsName s) :
    (ofNames names).join ⟨s⟩ = ofNames (names ++ [s]) := by
  have hrelative : isAbsolute ⟨s⟩ = false := by
    have hjoined : isAbsolute ⟨joinSlash [s]⟩ = false := isAbsolute_joinSlash (by simpa using hs)
    rwa [joinSlash, List.intercalate_singleton] at hjoined
  have hend := not_or.mpr ⟨raw_ofNames_ne_nil hne hnames, getLast?_ofNames hne hnames⟩
  rw [join, if_neg (by simp [hrelative]), if_neg hend, ofNames, ofNames, joinSlash_concat hne]

theorem dropIdle_names (hnames : ∀ s ∈ names, IsName s) : dropIdle names = names := by
  refine List.rdropWhile_eq_self_iff.mpr fun hne => ?_
  have hlast := hnames _ (List.getLast_mem hne)
  simp [isIdle, hlast.ne_empty, hlast.ne_dot]

/-- The parent of joined names is all of them but the last. -/
theorem parent?_ofNames (hne : names ≠ []) (hnames : ∀ s ∈ names, IsName s) :
    (ofNames names).parent? = some (ofNames names.dropLast) := by
  rw [parent?, segments_ofNames hne hnames]
  rcases names with _ | ⟨lead, body⟩
  · exact absurd rfl hne
  obtain ⟨hlead, hbody⟩ := List.forall_mem_cons.mp hnames
  rcases body with _ | ⟨s, body⟩
  · simp [parentSegments?, dropIdle, hlead.ne_empty, ofNames, joinSlash]
  · have hrest := dropIdle_names fun r hr => hbody r (List.dropLast_subset _ hr)
    simp [parentSegments?, dropIdle_names hbody, hrest, hlead.ne_empty, ofNames]

/-! ### Order -/

/-- Sorting puts paths in the order of their components. -/
theorem pairwise_mergeSort (paths : List Path) :
    (paths.mergeSort fun p q => (compare p.components q.components).isLE).Pairwise
      fun p q => (compare p.components q.components).isLE = true := by
  refine List.pairwise_mergeSort (fun _ _ _ => Std.TransCmp.isLE_trans) (fun p q => ?_) _
  have hswap : compare p.components q.components =
      (compare q.components p.components).swap := Std.OrientedOrd.eq_swap
  rw [hswap]
  cases compare q.components p.components <;> rfl

/-- Paths of names are in the order of their components in one way only. -/
theorem eq_of_perm_of_pairwise {paths paths' : List Path}
    (hpaths : ∀ p ∈ paths, ∃ names, (∀ s ∈ names, IsName s) ∧ p = ofNames names)
    (hperm : paths.Perm paths')
    (hsorted : paths.Pairwise fun p q => (compare p.components q.components).isLE = true)
    (hsorted' : paths'.Pairwise fun p q => (compare p.components q.components).isLE = true) :
    paths = paths' := by
  refine hperm.eq_of_pairwise (fun p q hp hq hpq hqp => ?_) hsorted hsorted'
  obtain ⟨names, hnames, rfl⟩ := hpaths p hp
  obtain ⟨names', hnames', rfl⟩ := hpaths q (hperm.mem_iff.mpr hq)
  have hcomponents := Std.LawfulEqOrd.eq_of_compare (Std.OrientedCmp.isLE_antisymm hpq hqp)
  rw [components_ofNames hnames, components_ofNames hnames'] at hcomponents
  rw [← ofComponents_names, ← ofComponents_names, hcomponents]

/-! ### Paths that lead down -/

/-- The path is relative, and wherever it goes it does not climb above where it starts. -/
structure IsInner (p : Path) : Prop where
  relative : p.isAbsolute = false
  noClimb : .up ∉ p.normalComponents

theorem IsInner.exists_names {p : Path} (h : p.IsInner) :
    ∃ names : List Raw, (∀ s ∈ names, IsName s) ∧ p.normalComponents = names.map .name := by
  have hroot : .root ∉ p.normalComponents := by
    intro hmem
    rw [normalComponents_eq, List.mem_reverse, anchor, if_neg (by simp [h.relative])] at hmem
    exact absurd (root_mem_of_mem_walk hmem) List.not_mem_nil
  have hnormal : IsNormal ([] ++ p.normalComponents) := p.isNormal_normalComponents
  obtain ⟨names, heq, hnames⟩ := hnormal.names_of_append (fun _ => hroot) h.noClimb
  exact ⟨names, hnames, heq⟩

theorem isInner_ofNames (hnames : ∀ s ∈ names, IsName s) : (ofNames names).IsInner :=
  ⟨isAbsolute_joinSlash hnames, by simp [normalComponents_ofNames hnames]⟩

/-- The path is relative and not empty, is written in normal form and does not climb. -/
structure Descends (p : Path) : Prop where
  normal : p.normalize = p
  relative : p.isAbsolute = false
  nonempty : p.raw ≠ []
  noUp : .up ∉ p.components

/-- A path that descends is made of names. -/
theorem Descends.exists_ofNames {p : Path} (h : p.Descends) :
    ∃ names : List Raw, names ≠ [] ∧ (∀ s ∈ names, IsName s) ∧ p = ofNames names := by
  have hcomponents : p.components = p.normalComponents := by
    rw [← components_normalize, h.normal]
  obtain ⟨names, hnames, heq⟩ := IsInner.exists_names ⟨h.relative, hcomponents ▸ h.noUp⟩
  have hp : p = ofNames names := by
    rw [← h.normal, normalize, heq, ofComponents_names]
  refine ⟨names, fun hnil => h.nonempty ?_, hnames, hp⟩
  rw [hp, hnil]
  rfl

end Path

end Schemata
