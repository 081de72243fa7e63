/-
The order in which a depth-first walk finishes its nodes.

A walk takes the nodes of a list in turn.  A node that is done is passed over; any
other is done once everything below it is, so it comes after its successors.  The walk
keeps no record of the nodes it is inside of, and none is needed: walking around a cycle
never finishes, so a walk that has an order at all has met no cycle.

Two views of an order carry the theory.  `PostOrder` says how the walk comes by it and
fixes it completely (`PostOrder.unique`).  `Grounded` forgets the walk and keeps that
every node stands behind its successors, which is what rules cycles out
(`Grounded.not_transGen`) and, through that, repetitions (`PostOrder.nodup`).
-/
import Mathlib.Logic.Relation

namespace Schemata

open Relation

variable {α : Type} {next : α → List α}

/-- Walking the nodes of `todo` from where `done` is done finishes the nodes of `order`,
in this order. -/
inductive PostOrder (next : α → List α) : List α → List α → List α → Prop where
  | nil (done : List α) : PostOrder next done [] []
  | skip {done todo order : List α} {v : α} (hv : v ∈ done)
      (hlater : PostOrder next done todo order) : PostOrder next done (v :: todo) order
  | visit {done todo below later : List α} {v : α} (hv : v ∉ done)
      (hbelow : PostOrder next done (next v) below)
      (hlater : PostOrder next (done ++ (below ++ [v])) todo later) :
      PostOrder next done (v :: todo) (below ++ [v] ++ later)

/-- An edge to a node that is not done. -/
def Step (next : α → List α) (done : List α) (a b : α) : Prop := b ∈ next a ∧ b ∉ done

/-- What is done only grows, so a step that is open later was open before. -/
theorem Step.of_append {done more : List α} {a b : α} (h : Step next (done ++ more) a b) :
    Step next done a b :=
  ⟨h.1, fun hb => h.2 (List.mem_append_left _ hb)⟩

/-! ### Nodes behind their successors -/

/-- Every node of the list stands behind all its successors, those that are done
excepted. -/
def Grounded (next : α → List α) : List α → List α → Prop
  | _, [] => True
  | done, x :: rest => (∀ y ∈ next x, y ∈ done) ∧ Grounded next (done ++ [x]) rest

theorem grounded_append {done as bs : List α} :
    Grounded next done (as ++ bs) ↔
      Grounded next done as ∧ Grounded next (done ++ as) bs := by
  induction as generalizing done with
  | nil => simp [Grounded]
  | cons a rest ih =>
      rw [List.cons_append, Grounded, Grounded, ih, and_assoc, List.append_assoc,
        List.singleton_append]

namespace Grounded

/-- The successors of a node stand before it. -/
theorem mem_before {done before after : List α} {x y : α}
    (h : Grounded next done (before ++ x :: after)) (hy : y ∈ next x) :
    y ∈ done ∨ y ∈ before :=
  List.mem_append.mp ((grounded_append.mp h).2.1 y hy)

/-- Everything a node leads to stands before it. -/
theorem mem_before_of_transGen {done before after : List α} {x y : α}
    (h : Grounded next done (before ++ x :: after)) (hxy : TransGen (Step next done) x y) :
    y ∈ before := by
  induction hxy using TransGen.head_induction_on generalizing before after with
  | single hstep => exact (h.mem_before hstep.1).resolve_left hstep.2
  | head hstep _ ih =>
      -- The next node is before `x`, and what it leads to is before that.
      obtain ⟨front, back, rfl⟩ :=
        List.append_of_mem ((h.mem_before hstep.1).resolve_left hstep.2)
      rw [List.append_assoc, List.cons_append] at h
      exact List.mem_append_left _ (ih h)

/-- **No node of a grounded list leads back to itself.** -/
theorem not_transGen {done order : List α} {x : α} (h : Grounded next done order)
    (hx : x ∈ order) : ¬ TransGen (Step next done) x x := by
  intro hcycle
  obtain ⟨before, after, rfl, hfirst⟩ := List.eq_append_cons_of_mem hx
  exact hfirst (h.mem_before_of_transGen hcycle)

/-- A grounded list that has a node has all it leads to. -/
theorem mem_of_reflTransGen {done order : List α} {x y : α} (h : Grounded next done order)
    (hx : x ∈ order) (hxy : ReflTransGen (Step next done) x y) : y ∈ order := by
  rcases reflTransGen_iff_eq_or_transGen.mp hxy with rfl | hxy
  · exact hx
  · obtain ⟨before, after, rfl⟩ := List.append_of_mem hx
    exact List.mem_append_left _ (h.mem_before_of_transGen hxy)

end Grounded

/-! ### What a walk finishes -/

namespace PostOrder

variable {done todo order : List α}

/-- A walk finishes nothing that is done. -/
theorem fresh (h : PostOrder next done todo order) : ∀ x ∈ order, x ∉ done := by
  induction h with
  | nil => simp
  | skip _ _ ih => exact ih
  | visit hv _ _ ihBelow ihLater =>
      intro x hx
      rcases List.mem_append.mp hx with hx | hx
      · rcases List.mem_append.mp hx with hx | hx
        · exact ihBelow x hx
        · rwa [List.mem_singleton.mp hx]
      · exact fun hdone => ihLater x hx (List.mem_append_left _ hdone)

/-- After a walk all it was to visit is done. -/
theorem covers (h : PostOrder next done todo order) : ∀ v ∈ todo, v ∈ done ∨ v ∈ order := by
  induction h with
  | nil => simp
  | skip hv _ ih =>
      intro w hw
      rcases List.mem_cons.mp hw with rfl | hw
      · exact .inl hv
      · exact ih w hw
  | visit _ _ _ _ ihLater =>
      intro w hw
      rcases List.mem_cons.mp hw with rfl | hw
      · exact .inr (by simp)
      · rcases ihLater w hw with hw | hw
        · rcases List.mem_append.mp hw with hw | hw
          · exact .inl hw
          · exact .inr (List.mem_append_left _ hw)
        · exact .inr (List.mem_append_right _ hw)

theorem grounded (h : PostOrder next done todo order) : Grounded next done order := by
  induction h with
  | nil => trivial
  | skip _ _ ih => exact ih
  | visit _ hbelow _ ihBelow ihLater =>
      refine grounded_append.mpr ⟨grounded_append.mpr ⟨ihBelow, ?_, trivial⟩, ihLater⟩
      exact fun y hy => List.mem_append.mpr (hbelow.covers y hy)

/-- A walk finishes only what the nodes it was to visit lead to. -/
theorem reached (h : PostOrder next done todo order) :
    ∀ x ∈ order, ∃ v ∈ todo, v ∉ done ∧ ReflTransGen (Step next done) v x := by
  induction h with
  | nil => simp
  | skip _ _ ih =>
      intro x hx
      obtain ⟨v, hv, hvx⟩ := ih x hx
      exact ⟨v, List.mem_cons_of_mem _ hv, hvx⟩
  | @visit done todo below later v hv _ _ ihBelow ihLater =>
      intro x hx
      rcases List.mem_append.mp hx with hx | hx
      · refine ⟨v, List.mem_cons_self, hv, ?_⟩
        rcases List.mem_append.mp hx with hx | hx
        · obtain ⟨w, hw, hwdone, hwx⟩ := ihBelow x hx
          exact .head ⟨hw, hwdone⟩ hwx
        · rw [List.mem_singleton.mp hx]
      · obtain ⟨w, hw, hwdone, hwx⟩ := ihLater x hx
        exact ⟨w, List.mem_cons_of_mem _ hw, fun hd => hwdone (List.mem_append_left _ hd),
          ReflTransGen.mono (fun _ _ => Step.of_append) w x hwx⟩

/-- A node is not finished below itself. -/
theorem notMem_below {below : List α} {v : α}
    (hbelow : PostOrder next done (next v) below) : v ∉ below := by
  intro hmem
  have hground : Grounded next done (below ++ [v]) :=
    grounded_append.mpr ⟨hbelow.grounded,
      fun y hy => List.mem_append.mpr (hbelow.covers y hy), trivial⟩
  obtain ⟨w, hw, hwdone, hwv⟩ := hbelow.reached v hmem
  exact hground.not_transGen (x := v) (by simp) (.head' ⟨hw, hwdone⟩ hwv)

/-- A walk does not leave a set of nodes that holds where it goes and what its nodes lead to. -/
theorem subset_of_closed {S : α → Prop} (h : PostOrder next done todo order)
    (htodo : ∀ v ∈ todo, S v) (hclosed : ∀ x ∈ order, S x → ∀ y ∈ next x, S y) :
    ∀ x ∈ order, S x := by
  induction h with
  | nil => simp
  | skip _ _ ih => exact ih (fun w hw => htodo w (List.mem_cons_of_mem _ hw)) hclosed
  | @visit done todo below later v _ _ _ ihBelow ihLater =>
      have hv : S v := htodo v List.mem_cons_self
      have hbelow : ∀ x ∈ below, S x :=
        ihBelow (fun y hy => hclosed v (by simp) hv y hy) fun x hx => hclosed x (by simp [hx])
      have hlater : ∀ x ∈ later, S x :=
        ihLater (fun w hw => htodo w (List.mem_cons_of_mem _ hw)) fun x hx =>
          hclosed x (List.mem_append_right _ hx)
      intro x hx
      rcases List.mem_append.mp hx with hx | hx
      · rcases List.mem_append.mp hx with hx | hx
        · exact hbelow x hx
        · rwa [List.mem_singleton.mp hx]
      · exact hlater x hx

/-- **A walk finishes no node twice.** -/
theorem nodup (h : PostOrder next done todo order) : order.Nodup := by
  induction h with
  | nil => exact List.nodup_nil
  | skip _ _ ih => exact ih
  | @visit done todo below later v hv hbelow hlater ihBelow ihLater =>
      have hfirst : (below ++ [v]).Nodup := by
        refine List.nodup_append.mpr ⟨ihBelow, by simp, ?_⟩
        rintro x hx y hy rfl
        exact hbelow.notMem_below (List.mem_singleton.mp hy ▸ hx)
      refine List.nodup_append.mpr ⟨hfirst, ihLater, ?_⟩
      rintro x hx y hy rfl
      exact hlater.fresh x hy (List.mem_append_right _ hx)

/-- **A walk finishes its nodes in one order only.** -/
theorem unique {order' : List α} (h : PostOrder next done todo order)
    (h' : PostOrder next done todo order') : order = order' := by
  induction h generalizing order' with
  | nil => cases h'; rfl
  | skip hv _ ih =>
      cases h' with
      | skip _ hlater' => exact ih hlater'
      | visit hv' => exact absurd hv hv'
  | visit hv _ _ ihBelow ihLater =>
      cases h' with
      | skip hv' => exact absurd hv' hv
      | visit _ hbelow' hlater' =>
          obtain rfl := ihBelow hbelow'
          rw [ihLater hlater']

/-- A walk over two lists is a walk over the one and then over the other. -/
theorem append {as bs first second : List α} (h : PostOrder next done as first)
    (h' : PostOrder next (done ++ first) bs second) :
    PostOrder next done (as ++ bs) (first ++ second) := by
  induction h with
  | nil done => rwa [List.append_nil] at h'
  | skip hv _ ih => exact .skip hv (ih h')
  | visit hv hbelow _ _ ihLater =>
      rw [List.append_assoc (_ ++ _)]
      refine .visit hv hbelow (ihLater ?_)
      rwa [List.append_assoc]

/-- Walking one node that is not done finishes it last. -/
theorem getLast?_singleton {v : α} (hv : v ∉ done) (h : PostOrder next done [v] order) :
    order.getLast? = some v := by
  cases h with
  | skip hv' => exact absurd hv' hv
  | visit _ _ hlater =>
      cases hlater
      simp

end PostOrder

end Schemata
