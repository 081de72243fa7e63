/-
Import keys as paths.

A key is made segment by segment the way a normal form is made component by component:
what the one takes onto its stack the other does, and what the one takes back the other
does.  So the segments of a key are the components of a relative path in normal form, a key
can be told from that normal form, and two keys never name one entry of a table.
-/
import Schemata.Proofs.Path.Normal

namespace Schemata

/-- The component a segment of a key stands for. -/
def keyComponent (s : String) : Component := if s = ".." then .up else .name s

theorem raw_keyComponent (s : String) : (keyComponent s).raw = s := by
  unfold keyComponent
  split
  · rename_i h
    rw [h]
    decide
  · rfl

theorem map_raw_keyComponent (ss : List String) :
    (ss.map keyComponent).map Component.raw = ss.map Raw.ofString := by
  rw [List.map_map, show Component.raw ∘ keyComponent = Raw.ofString from funext raw_keyComponent]

/-- The bytes of a segment are read as its component, if it is one. -/
theorem ofSegment?_ofString (s : String) :
    Component.ofSegment? s = if s = "" ∨ s = "." then none else some (keyComponent s) := by
  have hempty : (s : Raw) = [] ↔ s = "" := Raw.ofString_injective.eq_iff' (by decide)
  have hdot : (s : Raw) = [dot] ↔ s = "." := Raw.ofString_injective.eq_iff' (by decide)
  have hup : (s : Raw) = [dot, dot] ↔ s = ".." := Raw.ofString_injective.eq_iff' (by decide)
  rw [Component.ofSegment?, keyComponent]
  simp only [hempty, hdot, hup]
  split_ifs <;> rfl

/-! ### Keys are made like normal forms -/

/-- A segment does to a key what its component does to a normal form. -/
theorem map_pushKey (stack : List String) (s : String) :
    (pushKey stack s).map keyComponent = Path.walk (stack.map keyComponent) [(s : Raw)] := by
  unfold pushKey
  by_cases hidle : s = "" ∨ s = "."
  · have hnone := (ofSegment?_ofString s).trans (if_pos hidle)
    rw [if_pos hidle, Path.walk, List.filterMap_cons_none hnone]
    rfl
  have hread := (ofSegment?_ofString s).trans (if_neg hidle)
  rw [if_neg hidle, Path.walk, List.filterMap_cons_some hread]
  by_cases hup : s = ".."
  · rw [if_pos hup, hup]
    cases stack with
    | nil => rfl
    | cons top rest =>
        by_cases htop : top = ".."
        · subst htop
          rfl
        · simp [htop, keyComponent, Path.pushNormal]
  · simp [hup, keyComponent, Path.pushNormal]

theorem map_foldl_pushKey (stack ss : List String) :
    (ss.foldl pushKey stack).map keyComponent =
      Path.walk (stack.map keyComponent) (ss.map Raw.ofString) := by
  induction ss generalizing stack with
  | nil => rfl
  | cons s ss ih =>
      rw [List.foldl_cons, ih, map_pushKey, ← Path.walk_append, List.singleton_append,
        List.map_cons]

/-- The segments of a key are the components of the walk along its path. -/
theorem map_keySegments (path : String) :
    (keySegments path).map keyComponent = (Path.walk [] (segments path)).reverse := by
  rw [keySegments, List.map_reverse, map_foldl_pushKey, segments_ofString]
  rfl

/-- Whatever path it is made from, a key is a normal form. -/
theorem isNormal_keySegments (path : String) : IsNormal ((keySegments path).map keyComponent) := by
  rw [map_keySegments]
  exact Path.isNormal_walk isNormal_nil fun _ => slash_notMem_segments

theorem root_notMem_keySegments (path : String) : .root ∉ (keySegments path).map keyComponent := by
  rw [map_keySegments, List.mem_reverse]
  exact fun hmem => List.not_mem_nil (Path.root_mem_of_mem_walk hmem)

/-! ### Keys read as paths -/

theorem importKey_eq_ofComponents (path : String) :
    ⟨importKey path⟩ = Path.ofComponents ((keySegments path).map keyComponent) := by
  rw [IsNormal.ofComponents_of_relative (root_notMem_keySegments path), map_raw_keyComponent,
    importKey, ofString_intercalate]

/-- **A key is in normal form.** -/
theorem normalComponents_importKey (path : String) :
    Path.normalComponents ⟨importKey path⟩ = (keySegments path).map keyComponent := by
  rw [importKey_eq_ofComponents, (isNormal_keySegments path).normalComponents_ofComponents]

/-- A key is a relative path. -/
theorem isAbsolute_importKey (path : String) : Path.isAbsolute ⟨importKey path⟩ = false := by
  rw [importKey_eq_ofComponents]
  exact (isNormal_keySegments path).isAbsolute_ofComponents (root_notMem_keySegments path)

/-- A key can be told from its normal form. -/
theorem importKey_eq_joinSlash (path : String) :
    (importKey path : Raw) =
      joinSlash ((Path.normalComponents ⟨importKey path⟩).map Component.raw) := by
  rw [normalComponents_importKey, map_raw_keyComponent, importKey, ofString_intercalate]

/-- **Keys with one normal form are one key.** -/
theorem importKey_inj {a b : String}
    (h : Path.normalComponents ⟨importKey a⟩ = Path.normalComponents ⟨importKey b⟩) :
    importKey a = importKey b := by
  apply Raw.ofString_injective
  rw [importKey_eq_joinSlash a, h, ← importKey_eq_joinSlash b]

end Schemata
