/-
Where a normal form starts and the names it goes on by.

A normal form is a lead and then names.  The lead is the root, or `..` as often as it takes,
or nothing; the names are all that a path says about what lies below.  Two places keep the
names and lose the lead: the name a file gets from a directory is made of names only, and a
key that is joined to a directory begins by going back as often as it climbs.

So wherever two paths are told apart by such a name or such a place, it is their leads that
must agree.  Below a directory they do, unless all the directory does is climb: a path below
it could climb once more.
-/
import Schemata.Proofs.Path.Keys
import Schemata.Proofs.Path.Names

namespace Schemata

/-! ### Leads and names -/

/-- What stands before the names of a normal form. -/
def leadOf (cs : List Component) : List Component := cs.takeWhile fun c => c.name?.isNone

/-- The names among components. -/
def namesOf (cs : List Component) : List Raw := cs.filterMap Component.name?

@[simp] theorem namesOf_append (cs ds : List Component) :
    namesOf (cs ++ ds) = namesOf cs ++ namesOf ds := List.filterMap_append

@[simp] theorem namesOf_names (names : List Raw) : namesOf (names.map .name) = names := by
  rw [namesOf, List.filterMap_map, show Component.name? ∘ Component.name = some from rfl,
    List.filterMap_some]

@[simp] theorem leadOf_names (names : List Raw) : leadOf (names.map .name) = [] := by
  cases names <;> rfl

/-- A component that is no name belongs to the lead. -/
theorem leadOf_cons {c : Component} (hc : c.name? = none) (cs : List Component) :
    leadOf (c :: cs) = c :: leadOf cs := List.takeWhile_cons_of_pos (by simp [hc])

/-- Going on by names leaves the lead as it is. -/
theorem leadOf_append_names (cs : List Component) (names : List Raw) :
    leadOf (cs ++ names.map .name) = leadOf cs := by
  induction cs with
  | nil => exact leadOf_names names
  | cons c cs ih =>
      cases hc : c.name? with
      | some s => simp [leadOf, hc]
      | none => rw [List.cons_append, leadOf_cons hc, leadOf_cons hc, ih]

namespace IsNormal

variable {cs ds : List Component}

theorem isName_of_mem_namesOf (h : IsNormal cs) : ∀ s ∈ namesOf cs, IsName s := by
  intro s hs
  obtain ⟨c, hc, hname⟩ := List.mem_filterMap.mp hs
  cases c with
  | name t => exact Option.some.inj hname ▸ h.proper _ hc
  | _ => cases hname

/-- Behind a component that is no `..` a normal form goes on by names. -/
theorem names_behind (h : IsNormal (cs ++ ds)) (hcs : ∃ c ∈ cs, c ≠ .up) :
    ∃ names : List Raw, ds = names.map .name ∧ ∀ s ∈ names, IsName s := by
  obtain ⟨c, hc, hother⟩ := hcs
  refine h.names_of_append (fun hnil => absurd (hnil ▸ hc) List.not_mem_nil) fun hup => ?_
  exact hother (((List.pairwise_append.mp h.ordered).2.2 c hc .up hup).2 rfl)

/-- Behind `..` any relative normal form goes on. -/
theorem append_of_climbs (hcs : ∀ c ∈ cs, c = .up) (hds : IsNormal ds) (hroot : .root ∉ ds) :
    IsNormal (cs ++ ds) where
  proper := by
    refine List.forall_mem_append.mpr ⟨fun c hc => ?_, hds.proper⟩
    rw [hcs c hc]
    trivial
  ordered := by
    refine List.pairwise_append.mpr ⟨?_, hds.ordered, fun a ha b hb => ⟨?_, fun _ => hcs a ha⟩⟩
    · refine List.pairwise_of_forall_mem_list fun a ha b hb => ⟨?_, fun _ => hcs a ha⟩
      rw [hcs b hb]
      exact nofun
    · exact fun hb' => hroot (hb' ▸ hb)

/-- **A normal form is its lead and then its names.** -/
theorem eq_leadOf_append (h : IsNormal cs) : cs = leadOf cs ++ (namesOf cs).map .name := by
  induction cs with
  | nil => rfl
  | cons c cs ih =>
      have hrest : IsNormal cs := h.sublist (List.sublist_cons_self c cs)
      have hgoOn (hlead : c.name? = none) :
          c :: cs = leadOf (c :: cs) ++ (namesOf (c :: cs)).map .name := by
        rw [leadOf_cons hlead, namesOf, List.filterMap_cons_none hlead, List.cons_append]
        exact congrArg (c :: ·) (ih hrest)
      cases c with
      | name s =>
          have hbehind : IsNormal ([.name s] ++ cs) := h
          obtain ⟨names, rfl, -⟩ := hbehind.names_behind ⟨_, List.mem_cons_self, nofun⟩
          exact (congrArg (List.map Component.name) (namesOf_names (s :: names))).symm
      | root => exact hgoOn rfl
      | here => exact hgoOn rfl
      | up => exact hgoOn rfl

/-- A normal form can be told from its lead and its names. -/
theorem eq_of_leadOf_eq (h : IsNormal cs) (h' : IsNormal ds) (hlead : leadOf cs = leadOf ds)
    (hnames : namesOf cs = namesOf ds) : cs = ds := by
  rw [h.eq_leadOf_append, h'.eq_leadOf_append, hlead, hnames]

end IsNormal

namespace Path

/-- What stands before the names in the normal form of a path. -/
def lead (p : Path) : List Component := leadOf p.normalComponents

/-- The normal form is nothing but `..`, as often as it takes. -/
def OnlyClimbs (p : Path) : Prop := ∀ c ∈ p.normalComponents, c = .up

instance (p : Path) : Decidable p.OnlyClimbs :=
  inferInstanceAs (Decidable (∀ c ∈ p.normalComponents, c = .up))

/-- The directory at hand climbs by no step, and the root cannot climb. -/
example : OnlyClimbs ⟨"."⟩ ∧ OnlyClimbs ⟨"a/../.."⟩ ∧ ¬ OnlyClimbs ⟨"/.."⟩ := by decide +kernel

/-! ### Names of files below a directory -/

/-- The names of a directory that stay in the names of its files: it is stripped from their
paths as it is written, which comes to nothing unless that is its normal form. -/
def keptNames (root : Path) : List Raw :=
  if root.components = root.normalComponents then [] else namesOf root.normalComponents

theorem isName_of_mem_keptNames (root : Path) : ∀ s ∈ root.keptNames, IsName s := by
  rw [keptNames]
  split
  · simp
  · exact root.isNormal_normalComponents.isName_of_mem_namesOf

/-- Two spellings of a directory keep the same names if both are normal forms, or none is, or if
the normal form has no name in it. -/
theorem keptNames_congr {root root' : Path} (hsame : root.normalComponents = root'.normalComponents)
    (halike : (root.components = root.normalComponents ↔
      root'.components = root'.normalComponents) ∨ namesOf root.normalComponents = []) :
    root.keptNames = root'.keptNames := by
  rw [keptNames, keptNames]
  rcases halike with halike | hnone
  · rw [hsame] at halike ⊢
    exact if_congr halike rfl rfl
  · rw [← hsame, hnone, ite_self, ite_self]

/-- A path is its own normal form if its components begin one. -/
theorem normalComponents_eq_of_isPrefix {root : Path} {cs : List Component} (h : IsNormal cs)
    (hroot : root.components <+: cs) : root.normalComponents = root.components := by
  have hnormal : IsNormal ([].reverse ++ root.components) := h.sublist hroot.sublist
  rw [normalComponents, hnormal.foldl_pushNormal, List.append_nil, List.reverse_reverse]

/-- **A file below a directory is named by what the directory keeps and the names after it.** -/
theorem namesBelow_eq {root p : Path} {rest : List Component} (hp : IsNormal p.components)
    (hbelow : p.components = root.normalComponents ++ rest) :
    root.namesBelow p = root.keptNames ++ namesOf rest := by
  rw [namesBelow, rest?, keptNames]
  by_cases hnormal : root.components = root.normalComponents
  · have hpre : root.components <+: p.components := by
      rw [hbelow, hnormal]
      exact List.prefix_append _ _
    rw [if_pos hnormal, if_pos (List.isPrefixOf_iff_prefix.mpr hpre), hbelow, hnormal,
      List.drop_left]
    rfl
  · -- Stripping the directory comes to nothing, since a normal form has no other beginning.
    have hno : ¬ root.components.isPrefixOf p.components = true := fun hpre =>
      hnormal (normalComponents_eq_of_isPrefix hp (List.isPrefixOf_iff_prefix.mp hpre)).symm
    rw [if_neg hnormal, if_neg hno, Option.getD_none, hbelow, ← namesOf_append]
    rfl

/-- The names on the way from the directory to the path are texts. -/
def Legible (root p : Path) : Prop := ∀ s ∈ root.namesBelow p, s.IsText

instance (root p : Path) : Decidable (root.Legible p) :=
  inferInstanceAs (Decidable (∀ s ∈ root.namesBelow p, s.IsText))

/-- A name that is made of texts loses nothing of them. -/
theorem ofString_relativeName {root p : Path} (h : root.Legible p) :
    (root.relativeName p : Raw) = joinSlash (root.namesBelow p) := by
  have hback : ∀ s ∈ root.namesBelow p, (Raw.ofString ∘ Raw.lossy) s = id s :=
    fun s hs => Raw.isText_iff.mp (h s hs)
  rw [relativeName, ofString_intercalate, List.map_map, List.map_congr_left hback, List.map_id]

end Path

/-! ### Places of keys -/

/-- A key is walked component by component. -/
theorem walk_importKey (stack : List Component) (path : String) :
    Path.walk stack (segments (importKey path)) =
      (Path.normalComponents ⟨importKey path⟩).foldl Path.pushNormal stack := by
  have hproper := (isNormal_keySegments path).proper
  rw [normalComponents_importKey, importKey, ofString_intercalate,
    ← map_raw_keyComponent (keySegments path)]
  by_cases hempty : (keySegments path).map keyComponent = []
  · rw [hempty]
    rfl
  · rw [IsNormal.segments_raw hempty hproper, Path.walk,
      IsNormal.filterMap_raw hproper (root_notMem_keySegments path)]

/-- **A key is walked by its lead and then by its names**, which stay. -/
theorem walk_importKey_eq (stack : List Component) (path : String) :
    Path.walk stack (segments (importKey path)) =
      ((namesOf (Path.normalComponents ⟨importKey path⟩)).map Component.name).reverse ++
        (Path.lead ⟨importKey path⟩).foldl Path.pushNormal stack := by
  have hnormal := Path.isNormal_normalComponents ⟨importKey path⟩
  rw [walk_importKey]
  conv_lhs => rw [hnormal.eq_leadOf_append]
  rw [List.foldl_append, Path.foldl_pushNormal_names]
  rfl

/-- Keys with one lead that lead to one place are one key. -/
theorem importKey_inj_of_walk {stack : List Component} {a b : String}
    (hlead : Path.lead ⟨importKey a⟩ = Path.lead ⟨importKey b⟩)
    (h : Path.walk stack (segments (importKey a)) = Path.walk stack (segments (importKey b))) :
    importKey a = importKey b := by
  rw [walk_importKey_eq, walk_importKey_eq, hlead, List.append_cancel_right_eq,
    List.reverse_inj] at h
  refine importKey_inj ?_
  refine (Path.isNormal_normalComponents _).eq_of_leadOf_eq (Path.isNormal_normalComponents _)
    hlead ?_
  rw [← namesOf_names (namesOf (Path.normalComponents ⟨importKey a⟩)), h, namesOf_names]

end Schemata
