/-
How deep a value nests.

A decoder that enters a container has one level less left for what is in it, so depth
is only ever compared with the level above: a container fits into `depth + 1` levels
exactly if everything in it fits into `depth`.
-/
import Mathlib.Order.Lattice
import Schemata.Json

namespace Schemata.Json

mutual

/-- How many arrays and objects stand inside one another, at most. -/
def depth : Json → Nat
  | array elements => depthOfElements elements + 1
  | object entries => depthOfEntries entries + 1
  | _ => 0

/-- The greatest depth among values. -/
def depthOfElements : List Json → Nat
  | [] => 0
  | v :: vs => max v.depth (depthOfElements vs)

/-- The greatest depth among the values of entries. -/
def depthOfEntries : List (Option String × Json) → Nat
  | [] => 0
  | (_, v) :: entries => max v.depth (depthOfEntries entries)

end

@[simp] theorem depth_ofString (s : String) : (ofString s).depth = 0 := rfl

@[simp] theorem depth_integer (n : Int) : (integer n).depth = 0 := rfl

theorem depthOfElements_le {vs : List Json} {n : Nat} :
    depthOfElements vs ≤ n ↔ ∀ v ∈ vs, v.depth ≤ n := by
  induction vs with
  | nil => simp [depthOfElements]
  | cons v vs ih => simp [depthOfElements, ih]

theorem depthOfEntries_le {entries : List (Option String × Json)} {n : Nat} :
    depthOfEntries entries ≤ n ↔ ∀ e ∈ entries, e.2.depth ≤ n := by
  induction entries with
  | nil => simp [depthOfEntries]
  | cons e entries ih => simp [depthOfEntries, ih]

@[simp] theorem depth_array_le {vs : List Json} {n : Nat} :
    (array vs).depth ≤ n + 1 ↔ ∀ v ∈ vs, v.depth ≤ n := by
  rw [depth, Nat.succ_le_succ_iff, depthOfElements_le]

@[simp] theorem depth_array_ne_zero (vs : List Json) : (array vs).depth ≠ 0 := by
  simp [depth]

theorem depth_ofEntries_le {entries : List (String × Json)} {n : Nat} :
    (ofEntries entries).depth ≤ n + 1 ↔ ∀ e ∈ entries, e.2.depth ≤ n := by
  rw [ofEntries, depth, Nat.succ_le_succ_iff, depthOfEntries_le, List.forall_mem_map]

@[simp] theorem depth_ofEntries_ne_zero (entries : List (String × Json)) :
    (ofEntries entries).depth ≠ 0 := by
  simp [ofEntries, depth]

end Schemata.Json
