/-
The order in which a depth-first walk meets its nodes.

The walk keeps an agenda and works it off from the front.  A node that was seen is passed over;
any other is met, and what it leads to goes to the front of the agenda, so all of that is met
before the nodes that were waiting.  Unlike the order in which nodes are finished, this one does
not mind cycles, and it makes sense of a walk that is broken off: what was met until then is met
in any walk that goes further (`PreOrder.isPrefix`).

A walk is whole if it leaves nothing, and whole walks go on from each other (`PreOrder.append`).
-/
import Mathlib.Data.List.Nodup

namespace Schemata

variable {α : Type} {next : α → List α}

/-- Walking the nodes of `todo` from where those of `seen` are seen meets the nodes of `order`,
in this order, and leaves the nodes of `left` to be walked. -/
inductive PreOrder (next : α → List α) : List α → List α → List α → List α → Prop where
  | stop (seen todo : List α) : PreOrder next seen todo [] todo
  | skip {seen todo order left : List α} {v : α} (hv : v ∈ seen)
      (hlater : PreOrder next seen todo order left) : PreOrder next seen (v :: todo) order left
  | visit {seen todo order left : List α} {v : α} (hv : v ∉ seen)
      (hlater : PreOrder next (v :: seen) (next v ++ todo) order left) :
      PreOrder next seen (v :: todo) (v :: order) left

namespace PreOrder

variable {seen todo order left : List α}

/-- A walk meets nothing that was seen. -/
theorem fresh (h : PreOrder next seen todo order left) : ∀ x ∈ order, x ∉ seen := by
  induction h with
  | stop => simp
  | skip _ _ ih => exact ih
  | visit hv _ ih =>
      intro x hx
      rcases List.mem_cons.mp hx with rfl | hx
      · exact hv
      · exact fun hmem => ih x hx (List.mem_cons_of_mem _ hmem)

/-- **A walk meets no node twice.** -/
theorem nodup (h : PreOrder next seen todo order left) : order.Nodup := by
  induction h with
  | stop => exact List.nodup_nil
  | skip _ _ ih => exact ih
  | visit _ hlater ih =>
      exact List.nodup_cons.mpr ⟨fun hmem => hlater.fresh _ hmem List.mem_cons_self, ih⟩

/-- **What a walk meets before it is broken off is met first in the whole walk.** -/
theorem isPrefix {whole : List α} (h : PreOrder next seen todo order left)
    (hwhole : PreOrder next seen todo whole []) : order <+: whole := by
  induction h generalizing whole with
  | stop => exact List.nil_prefix
  | skip hv _ ih =>
      cases hwhole with
      | skip _ hlater => exact ih hlater
      | visit hv' => exact absurd hv hv'
  | visit hv _ ih =>
      cases hwhole with
      | skip hv' => exact absurd hv' hv
      | visit _ hlater => exact List.cons_prefix_cons.mpr ⟨rfl, ih hlater⟩

/-- **A whole walk meets its nodes in one order only.** -/
theorem unique {order' : List α} (h : PreOrder next seen todo order [])
    (h' : PreOrder next seen todo order' []) : order = order' :=
  (h.isPrefix h').eq_of_length_le (h'.isPrefix h).length_le

/-- A whole walk over one list goes on over another. -/
theorem append {as bs first second : List α} (h : PreOrder next seen as first [])
    (h' : PreOrder next (first.reverse ++ seen) bs second left) :
    PreOrder next seen (as ++ bs) (first ++ second) left := by
  generalize hrest : ([] : List α) = rest at h
  induction h with
  | stop =>
      subst hrest
      exact h'
  | skip hv _ ih => exact .skip hv (ih h' hrest)
  | visit hv _ ih =>
      rw [List.reverse_cons, List.append_assoc, List.singleton_append] at h'
      have hlater := ih h' hrest
      rw [List.append_assoc] at hlater
      exact .visit hv hlater

/-- What waits behind the nodes of a walk is left with the rest. -/
theorem append_todo (h : PreOrder next seen todo order left) (waiting : List α) :
    PreOrder next seen (todo ++ waiting) order (left ++ waiting) := by
  induction h with
  | stop => exact .stop _ _
  | skip hv _ ih => exact .skip hv ih
  | visit hv _ ih =>
      rw [List.append_assoc] at ih
      exact .visit hv ih

end PreOrder

end Schemata
