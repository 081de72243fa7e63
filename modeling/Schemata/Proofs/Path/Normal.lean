/-
Paths in normal form.

A normal form is the root or nothing, then `..` as often as it takes, then names; no dot
stands in it.  Such components survive being written out as a path and read again, and
normalising that path leaves them as they are.  So a normal form is as good as the path it
spells.

Normalising is one walk over the segments of a path from where the path starts, and a
relative path joined to another one is walked from where the other one ends.  That is what
ties joining to the normal form.
-/
import Schemata.Path
import Schemata.Proofs.Path.Segments

namespace Schemata

/-! ### Proper components -/

/-- The segment stands for a name. -/
structure IsName (s : Raw) : Prop where
  ne_empty : s ≠ []
  ne_dot : s ≠ [dot]
  ne_up : s ≠ [dot, dot]
  no_slash : slash ∉ s

instance (s : Raw) : Decidable (IsName s) :=
  decidable_of_iff (s ≠ [] ∧ s ≠ [dot] ∧ s ≠ [dot, dot] ∧ slash ∉ s)
    ⟨fun ⟨hempty, hdot, hup, hslash⟩ => ⟨hempty, hdot, hup, hslash⟩,
      fun ⟨hempty, hdot, hup, hslash⟩ => ⟨hempty, hdot, hup, hslash⟩⟩

/-- The component can stand in a normal form. -/
def Component.IsProper : Component → Prop
  | .here => False
  | .name s => IsName s
  | _ => True

theorem Component.ofSegment?_ne_root {s : Raw} {c : Component} (h : ofSegment? s = some c) :
    c ≠ .root := by
  unfold ofSegment? at h
  split_ifs at h <;> cases h <;> exact nofun

theorem Component.ofSegment?_proper {s : Raw} {c : Component} (hs : slash ∉ s)
    (h : ofSegment? s = some c) : c.IsProper := by
  unfold ofSegment? at h
  split_ifs at h with hidle hup
  · cases h
    trivial
  · cases h
    rw [not_or] at hidle
    exact ⟨hidle.1, hidle.2, hup, hs⟩

theorem Component.IsProper.ofSegment?_raw {c : Component} (h : c.IsProper) (hroot : c ≠ .root) :
    ofSegment? c.raw = some c := by
  cases c with
  | root => exact absurd rfl hroot
  | here => exact h.elim
  | up => rfl
  | name s =>
      obtain ⟨hempty, hdot, hup, -⟩ := h
      rw [raw, ofSegment?, if_neg (by simp [hempty, hdot]), if_neg hup]

theorem Component.IsProper.slash_notMem_raw {c : Component} (h : c.IsProper) :
    slash ∉ c.raw := by
  cases c with
  | name s => exact IsName.no_slash h
  | _ => decide

/-! ### Normal forms -/

/-- The components are a normal form. -/
structure IsNormal (cs : List Component) : Prop where
  proper : ∀ c ∈ cs, c.IsProper
  /-- Nothing stands before the root, and nothing but `..` before a `..`. -/
  ordered : cs.Pairwise fun a b => b ≠ .root ∧ (b = .up → a = .up)

theorem isNormal_nil : IsNormal [] := ⟨by simp, .nil⟩

theorem isNormal_root : IsNormal [.root] := ⟨by simp [Component.IsProper], by simp⟩

namespace IsNormal

variable {cs ds : List Component}

theorem sublist (h : IsNormal cs) (hsub : ds.Sublist cs) : IsNormal ds :=
  ⟨fun c hc => h.proper c (hsub.subset hc), h.ordered.sublist hsub⟩

/-- A normal form goes on with a component that may stand behind all others. -/
theorem snoc {c : Component} (h : IsNormal cs) (hc : c.IsProper)
    (hlast : ∀ a ∈ cs, c ≠ .root ∧ (c = .up → a = .up)) : IsNormal (cs ++ [c]) := by
  refine ⟨?_, List.pairwise_append.mpr ⟨h.ordered, List.pairwise_singleton _ _, ?_⟩⟩
  · intro d hd
    rcases List.mem_append.mp hd with hd | hd
    · exact h.proper d hd
    · rwa [List.mem_singleton.mp hd]
  · intro a ha b hb
    rw [List.mem_singleton.mp hb]
    exact hlast a ha

/-- A normal form goes on with names. -/
theorem append_names {names : List Raw} (h : IsNormal cs) (hnames : ∀ s ∈ names, IsName s) :
    IsNormal (cs ++ names.map .name) := by
  induction names generalizing cs with
  | nil => simpa using h
  | cons s names ih =>
      have hs : IsNormal (cs ++ [.name s]) :=
        h.snoc (hnames s List.mem_cons_self) (by simp)
      have hall := ih hs fun t ht => hnames t (List.mem_cons_of_mem _ ht)
      rwa [List.append_assoc] at hall

/-- What stands behind the root or a name in a normal form are names. -/
theorem names_of_append (h : IsNormal (cs ++ ds)) (hroot : cs = [] → .root ∉ ds)
    (hup : .up ∉ ds) : ∃ names : List Raw, ds = names.map .name ∧ ∀ s ∈ names, IsName s := by
  have hnoroot : .root ∉ ds := by
    intro hmem
    cases cs with
    | nil => exact hroot rfl hmem
    | cons a cs =>
        exact ((List.pairwise_append.mp h.ordered).2.2 a List.mem_cons_self _ hmem).1 rfl
  have hproper : ∀ c ∈ ds, c.IsProper := fun c hc => h.proper c (List.mem_append_right _ hc)
  clear h hroot
  induction ds with
  | nil => exact ⟨[], rfl, by simp⟩
  | cons c ds ih =>
      simp only [List.mem_cons, not_or] at hup hnoroot
      obtain ⟨names, rfl, hnames⟩ :=
        ih hup.2 hnoroot.2 fun d hd => hproper d (List.mem_cons_of_mem _ hd)
      have hc := hproper c List.mem_cons_self
      cases c with
      | root => exact absurd rfl hnoroot.1
      | here => exact hc.elim
      | up => exact absurd rfl hup.1
      | name s => exact ⟨s :: names, rfl, by simpa using ⟨hc, hnames⟩⟩

end IsNormal

namespace Path

/-! ### The walk over the segments -/

/-- Where a path starts: at the root or nowhere. -/
def anchor (p : Path) : List Component := if p.isAbsolute then [.root] else []

/-- Takes the components of segments onto a path in normal form, whose last component is at
the head of the list. -/
def walk (stack : List Component) (ss : List Raw) : List Component :=
  (ss.filterMap Component.ofSegment?).foldl pushNormal stack

theorem walk_append (stack : List Component) (ss ts : List Raw) :
    walk stack (ss ++ ts) = walk (walk stack ss) ts := by
  rw [walk, List.filterMap_append, List.foldl_append]
  rfl

theorem isAbsolute_iff {p : Path} :
    p.isAbsolute = true ↔ ∃ s ss, segments p.raw = [] :: s :: ss := by
  rw [isAbsolute, decide_eq_true_eq, segments]
  cases p.raw with
  | nil => simp [cutAt]
  | cons c cs =>
      by_cases hc : c = slash
      · cases hcut : cutAt slash cs with
        | nil => exact absurd hcut (cutAt_ne_nil slash cs)
        | cons s ss => simp [cutAt, hc, hcut]
      · rw [cutAt, if_neg hc]
        cases cutAt slash cs <;> simp [hc]

/-- Segments that begin neither with a dot nor with the slash of the root. -/
theorem componentsOf_cons {s : Raw} {ss : List Raw} (hdot : s ≠ [dot])
    (hempty : s = [] → ss = []) :
    componentsOf (s :: ss) = (s :: ss).filterMap Component.ofSegment? := by
  cases ss with
  | nil =>
      rw [componentsOf, if_neg hdot]
      cases hc : Component.ofSegment? s <;> simp [hc]
  | cons t ts =>
      have hne : s ≠ [] := fun hs => nomatch hempty hs
      rw [componentsOf, if_neg hne, if_neg hdot]
      · cases hc : Component.ofSegment? s <;> simp [hc]
      · simp

/-- An absolute path begins with the root. -/
theorem root_mem_components {p : Path} (h : p.isAbsolute = true) : .root ∈ p.components := by
  obtain ⟨s, ss, hseg⟩ := isAbsolute_iff.mp h
  rw [components, hseg]
  exact List.mem_cons_self

/-- A path is walked from where it starts. -/
theorem foldl_components (p : Path) :
    p.components.foldl pushNormal [] = walk p.anchor (segments p.raw) := by
  rw [components, anchor]
  by_cases habs : p.isAbsolute = true
  · obtain ⟨s, ss, hseg⟩ := isAbsolute_iff.mp habs
    rw [if_pos habs, hseg]
    rfl
  · rw [if_neg habs]
    rw [isAbsolute_iff] at habs
    rcases hseg : segments p.raw with _ | ⟨s, ss⟩
    · rfl
    by_cases hdot : s = "."
    · -- A leading dot is a component, but not one that is kept.
      subst hdot
      cases ss <;> rfl
    · have hempty : s = [] → ss = [] := by
        rintro rfl
        cases ss with
        | nil => rfl
        | cons t ts => exact absurd ⟨t, ts, hseg⟩ habs
      rw [componentsOf_cons hdot hempty, walk]

theorem normalComponents_eq (p : Path) :
    p.normalComponents = (walk p.anchor (segments p.raw)).reverse := by
  rw [normalComponents, foldl_components]

/-- Taking one more component onto a normal form, its last component at the head, leaves a
normal form. -/
theorem isNormal_pushNormal {stack : List Component} {c : Component} (h : IsNormal stack.reverse)
    (hc : c.IsProper) (hroot : c ≠ .root) : IsNormal (pushNormal stack c).reverse := by
  cases c with
  | root => exact absurd rfl hroot
  | here => exact hc.elim
  | name s =>
      rw [pushNormal, List.reverse_cons]
      · exact h.snoc hc (by simp)
      all_goals simp
  | up =>
      have hpush (hups : ∀ a ∈ stack, a = .up) : IsNormal (.up :: stack).reverse := by
        rw [List.reverse_cons]
        exact h.snoc hc fun a ha => ⟨nofun, fun _ => hups a (List.mem_reverse.mp ha)⟩
      cases stack with
      | nil => exact hpush (by simp)
      | cons top rest =>
          cases top with
          | root => exact h
          | here => exact (h.proper .here (by simp)).elim
          | name s => exact h.sublist (List.reverse_sublist.mpr (List.sublist_cons_self _ rest))
          | up =>
              -- All that stands before a `..` is `..`.
              have hbefore := (List.pairwise_cons.mp (List.pairwise_reverse.mp h.ordered)).1
              refine hpush fun a ha => ?_
              rcases List.mem_cons.mp ha with rfl | ha
              · rfl
              · exact (hbefore a ha).2 rfl

/-- Walking on from a normal form leaves a normal form. -/
theorem isNormal_walk {stack : List Component} {ss : List Raw} (h : IsNormal stack.reverse)
    (hss : ∀ s ∈ ss, slash ∉ s) : IsNormal (walk stack ss).reverse := by
  induction ss generalizing stack with
  | nil => exact h
  | cons s ss ih =>
      have hrest : ∀ t ∈ ss, slash ∉ t := fun t ht => hss t (List.mem_cons_of_mem _ ht)
      cases hc : Component.ofSegment? s with
      | none =>
          have hskip : walk stack (s :: ss) = walk stack ss := by simp [walk, hc]
          rw [hskip]
          exact ih h hrest
      | some c =>
          have hstep : walk stack (s :: ss) = walk (pushNormal stack c) ss := by simp [walk, hc]
          have hproper := Component.ofSegment?_proper (hss s List.mem_cons_self) hc
          rw [hstep]
          exact ih (isNormal_pushNormal h hproper (Component.ofSegment?_ne_root hc)) hrest

theorem mem_of_mem_pushNormal {stack : List Component} {c d : Component}
    (h : d ∈ pushNormal stack c) : d = c ∨ d ∈ stack := by
  unfold pushNormal at h
  split at h
  · exact .inr h
  · split at h
    · exact .inr (List.mem_cons_of_mem _ h)
    · exact .inr h
    · exact List.mem_cons.mp h
  · exact List.mem_cons.mp h

/-- Walking on never comes to a root that was not there. -/
theorem root_mem_of_mem_walk {stack : List Component} {ss : List Raw}
    (h : .root ∈ walk stack ss) : .root ∈ stack := by
  induction ss generalizing stack with
  | nil => exact h
  | cons s ss ih =>
      cases hc : Component.ofSegment? s with
      | none => exact ih (by simpa [walk, hc] using h)
      | some c =>
          have hmem : .root ∈ pushNormal stack c := ih (by simpa [walk, hc] using h)
          rcases mem_of_mem_pushNormal hmem with hroot | hmem
          · exact absurd hroot.symm (Component.ofSegment?_ne_root hc)
          · exact hmem

/-- Going on by names takes each of them onto the path. -/
theorem foldl_pushNormal_names (stack : List Component) (names : List Raw) :
    (names.map Component.name).foldl pushNormal stack =
      (names.map Component.name).reverse ++ stack := by
  induction names generalizing stack with
  | nil => rfl
  | cons s names ih => rw [List.map_cons, List.foldl_cons, ih, pushNormal] <;> simp

/-- Walking on by names takes each of them onto the path. -/
theorem walk_names {names : List Raw} (stack : List Component)
    (hnames : ∀ s ∈ names, IsName s) :
    walk stack names = (names.map Component.name).reverse ++ stack := by
  have hread : names.filterMap Component.ofSegment? = names.map .name :=
    List.filterMap_eq_map_iff_forall_eq_some.mpr fun s hs =>
      Component.IsProper.ofSegment?_raw (c := .name s) (hnames s hs) nofun
  rw [walk, hread, foldl_pushNormal_names]

/-- The normal form is one. -/
theorem isNormal_normalComponents (p : Path) : IsNormal p.normalComponents := by
  rw [normalComponents_eq]
  refine isNormal_walk ?_ fun s => slash_notMem_segments
  rw [anchor]
  split
  · exact isNormal_root
  · exact isNormal_nil

end Path

/-! ### Normal forms read as paths -/

namespace IsNormal

variable {cs : List Component}

/-- Components without a root are written out with slashes between them. -/
theorem ofComponents_of_relative (hroot : .root ∉ cs) :
    Path.ofComponents cs = ⟨joinSlash (cs.map Component.raw)⟩ := by
  rcases cs with _ | ⟨c, cs⟩
  · rfl
  cases c with
  | root => exact absurd List.mem_cons_self hroot
  | _ => rfl

/-- Components are read back from their texts. -/
theorem filterMap_raw (hproper : ∀ c ∈ cs, c.IsProper) (hroot : .root ∉ cs) :
    (cs.map Component.raw).filterMap Component.ofSegment? = cs := by
  have hback : ∀ c ∈ cs, (Component.ofSegment? ∘ Component.raw) c = some (id c) :=
    fun c hc => (hproper c hc).ofSegment?_raw fun h => hroot (h ▸ hc)
  rw [List.filterMap_map, List.filterMap_eq_map_iff_forall_eq_some.mpr hback, List.map_id]

/-- The texts of components are cut apart again. -/
theorem segments_raw (hne : cs ≠ []) (hproper : ∀ c ∈ cs, c.IsProper) :
    segments (joinSlash (cs.map Component.raw)) = cs.map Component.raw := by
  refine segments_joinSlash (by simpa using hne) fun s hs => ?_
  obtain ⟨c, hc, rfl⟩ := List.mem_map.mp hs
  exact (hproper c hc).slash_notMem_raw

/-- **The path a normal form spells has its components.** -/
theorem components_ofComponents (h : IsNormal cs) : (Path.ofComponents cs).components = cs := by
  rcases cs with _ | ⟨c, cs⟩
  · rfl
  have hproper : ∀ d ∈ cs, d.IsProper := fun d hd => h.proper d (List.mem_cons_of_mem _ hd)
  have hnoroot : .root ∉ cs := fun hmem =>
    ((List.pairwise_cons.mp h.ordered).1 _ hmem).1 rfl
  by_cases hroot : c = .root
  · subst hroot
    rcases cs with _ | ⟨d, ds⟩
    · decide
    · have hcut : segments (slash :: joinSlash ((d :: ds).map Component.raw)) =
          segments [] ++ (d :: ds).map Component.raw := by
        rw [← List.nil_append (slash :: _), segments_append, segments_raw (by simp) hproper]
      rw [Path.components, Path.ofComponents, hcut]
      exact congrArg (Component.root :: ·) (filterMap_raw hproper hnoroot)
  · have hrelative : .root ∉ c :: cs := by simp [Ne.symm hroot, hnoroot]
    have hread := (h.proper c List.mem_cons_self).ofSegment?_raw hroot
    have hdot : c.raw ≠ [dot] := fun hc => by rw [hc] at hread; cases hread
    have hempty : c.raw ≠ [] := fun hc => by rw [hc] at hread; cases hread
    rw [Path.components, ofComponents_of_relative hrelative, segments_raw (by simp) h.proper,
      List.map_cons, Path.componentsOf_cons hdot fun hc => absurd hc hempty, ← List.map_cons,
      filterMap_raw h.proper hrelative]

/-- A normal form without a root spells a relative path. -/
theorem isAbsolute_ofComponents (h : IsNormal cs) (hroot : .root ∉ cs) :
    (Path.ofComponents cs).isAbsolute = false := by
  refine Bool.eq_false_iff.mpr fun habs => hroot ?_
  have hmem := Path.root_mem_components habs
  rwa [h.components_ofComponents] at hmem

/-- Normalising takes the components of a normal form one after the other. -/
theorem foldl_pushNormal {stack : List Component} (h : IsNormal (stack.reverse ++ cs)) :
    cs.foldl Path.pushNormal stack = cs.reverse ++ stack := by
  induction cs generalizing stack with
  | nil => rfl
  | cons c cs ih =>
      have hstep : Path.pushNormal stack c = c :: stack := by
        cases c with
        | root => rfl
        | here => exact (h.proper .here (by simp)).elim
        | name s => rfl
        | up =>
            cases stack with
            | nil => rfl
            | cons top rest =>
                have hup : top = .up :=
                  ((List.pairwise_append.mp h.ordered).2.2 top (by simp) .up (by simp)).2 rfl
                rw [hup]
                rfl
      rw [List.foldl_cons, hstep, ih (by simpa using h)]
      simp

/-- **The path a normal form spells is in normal form.** -/
theorem normalComponents_ofComponents (h : IsNormal cs) :
    (Path.ofComponents cs).normalComponents = cs := by
  rw [Path.normalComponents, h.components_ofComponents, foldl_pushNormal (by simpa using h)]
  simp

end IsNormal

namespace Path

theorem components_normalize (p : Path) : p.normalize.components = p.normalComponents :=
  p.isNormal_normalComponents.components_ofComponents

theorem normalComponents_normalize (p : Path) :
    p.normalize.normalComponents = p.normalComponents :=
  p.isNormal_normalComponents.normalComponents_ofComponents

/-- Two paths have one normal form if they have its components. -/
theorem normalize_eq_iff {p q : Path} :
    p.normalize = q.normalize ↔ p.normalComponents = q.normalComponents := by
  refine ⟨fun h => ?_, congrArg ofComponents⟩
  rw [← p.components_normalize, h, q.components_normalize]

/-! ### Joining -/

theorem isAbsolute_append {p : Path} (hp : p.raw ≠ []) (t : Raw) :
    isAbsolute ⟨p.raw ++ t⟩ = p.isAbsolute := by
  rw [isAbsolute, isAbsolute, List.head?_append_of_ne_nil _ hp]

/-- **A relative path is walked from where the path before it ends.** -/
theorem normalComponents_join (p : Path) {q : Path} (hq : q.isAbsolute = false) :
    (p.join q).normalComponents =
      (walk p.normalComponents.reverse (segments q.raw)).reverse := by
  have habs : ¬ q.isAbsolute = true := by simp [hq]
  rw [normalComponents_eq p, List.reverse_reverse, normalComponents_eq, ← walk_append, join,
    if_neg habs]
  split_ifs with hend
  · by_cases hempty : p.raw = []
    · have hanchor : anchor ⟨p.raw ++ q.raw⟩ = [] := by simp [anchor, hempty, hq]
      have hstart : p.anchor = [] := by simp [anchor, isAbsolute, hempty]
      rw [hanchor, hstart, hempty]
      rfl
    · obtain ⟨cs, hcs⟩ := List.getLast?_eq_some_iff.mp (hend.resolve_left hempty)
      have hanchor : anchor ⟨p.raw ++ q.raw⟩ = p.anchor := by
        rw [anchor, anchor, isAbsolute_append hempty]
      rw [hanchor, hcs, List.append_assoc, List.singleton_append, segments_append, segments_append,
        List.append_assoc, walk_append, walk_append]
      rfl
  · rw [not_or] at hend
    have hanchor : anchor ⟨p.raw ++ slash :: q.raw⟩ = p.anchor := by
      rw [anchor, anchor, isAbsolute_append hend.1]
    rw [hanchor, segments_append]

end Path

end Schemata
