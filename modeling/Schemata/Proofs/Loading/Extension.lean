/-
A load that succeeds succeeds by any resolver that finds more.

All that a load which succeeds has asked for was found.  A second resolver that finds the
same wherever the first one finds anything leaves no step of it to be taken otherwise: the
same files are open, the same imports are passed over, and a bound that is no lower is not
met.  What the second resolver finds beyond that is never asked for.
-/
import Schemata.Proofs.Loading.Run

namespace Schemata

/-- What the second resolver finds the first one finds too, and its bound is no lower. -/
structure Resolver.Extends (R' R : Resolver) : Prop where
  finds : ∀ key bytes, R.resolve key = .ok bytes → R'.resolve key = .ok bytes
  depth : R.depth ≤ R'.depth

namespace ImportGraph

variable {g : ImportGraph} {R' : Resolver} {name : String}

/-- The same root with another resolver. -/
def withResolver (g : ImportGraph) (R' : Resolver) : ImportGraph := { g with resolver := R' }

/-- What a file holds it holds by a resolver that finds more. -/
theorem content?_withResolver (h : R'.Extends g.resolver) {bytes : ByteArray}
    (hbytes : g.content? name = some bytes) : (g.withResolver R').content? name = some bytes := by
  by_cases hroot : name = g.root
  · subst hroot
    rw [content?_root] at hbytes
    exact (content?_root (g.withResolver R')).trans hbytes
  · rw [content?_of_ne hroot, Fallible.toOption_eq_some] at hbytes
    rw [content?_of_ne (g := g.withResolver R') hroot, Fallible.toOption_eq_some]
    exact h.finds name bytes hbytes

theorem compiled?_withResolver (h : R'.Extends g.resolver) {c : Compiled}
    (hc : g.compiled? name = some c) : (g.withResolver R').compiled? name = some c := by
  obtain ⟨bytes, hbytes, hcompile⟩ := compiled?_eq_some.mp hc
  exact compiled?_eq_some.mpr ⟨bytes, content?_withResolver h hbytes, hcompile⟩

theorem edge_withResolver (h : R'.Extends g.resolver) {a b : String} (hedge : g.Edge a b) :
    (g.withResolver R').Edge a b := by
  cases hc : g.compiled? a with
  | none =>
      rw [Edge, imports, hc] at hedge
      exact absurd hedge List.not_mem_nil
  | some c =>
      rw [Edge, imports_of_compiled? hc] at hedge
      rwa [Edge, imports_of_compiled? (compiled?_withResolver h hc)]

/-- Files that can be open at once can be so by a resolver that finds more. -/
theorem Chain.withResolver (h : R'.Extends g.resolver) {names : List String}
    (hchain : g.Chain names) : (g.withResolver R').Chain names where
  head := hchain.head
  nodup := hchain.nodup
  linked := hchain.linked.imp fun _ _ => edge_withResolver h
  content name hname := by
    obtain ⟨bytes, hbytes⟩ := hchain.content name hname
    exact ⟨bytes, content?_withResolver h hbytes⟩

end ImportGraph

namespace Loading

variable {g : ImportGraph} {known : DescriptorSet} {R' : Resolver} {chain : List String}
  {p q : Progress}

theorem Ready.withResolver (h : R'.Extends g.resolver) {name : String}
    (hready : Ready g known chain name p) : Ready (g.withResolver R') known chain name p :=
  ⟨hready.opens.withResolver h, hready.fresh⟩

/-- **A run that succeeds is a run by any resolver that finds more.** -/
theorem Runs.withResolver (hext : R'.Extends g.resolver) {task : Task} {r : Except Error Unit}
    (h : Runs g known chain task p r q) (hr : r = .ok ()) :
    Runs (g.withResolver R') known chain task p r q := by
  induction h with
  | tooDeep => cases hr
  | refused => cases hr
  | stopped => cases hr
  | cycle => cases hr
  | missing => cases hr
  | failed => cases hr
  | finished hready hroom hc _ ih =>
      exact .finished (hready.withResolver hext) (hroom.trans_le hext.depth)
        (ImportGraph.compiled?_withResolver hext hc) (ih rfl)
  | nil => exact .nil
  | skip hopen hdone _ ih => exact .skip hopen hdone (ih hr)
  | loaded hnew _ _ ihLoad ihLater => exact .loaded hnew (ihLoad rfl) (ihLater hr)

end Loading

open Loading

/-- **A load that succeeds ends alike by any resolver that finds more.** -/
theorem loadOver_of_extends {R R' : Resolver} (hext : R'.Extends R) (known : DescriptorSet)
    (nesting : Nesting) (name : String) (bytes : ByteArray) (set : DescriptorSet)
    (hok : (loadOver known R nesting name bytes set).result = .ok ()) :
    loadOver known R' nesting name bytes set = loadOver known R nesting name bytes set := by
  let g : ImportGraph := ⟨name, bytes, R, nesting⟩
  let g' : ImportGraph := ⟨name, bytes, R', nesting⟩
  rw [loadOver_eq known g set] at hok ⊢
  rw [loadOver_eq known g' set]
  by_cases hdone : name ∈ Progress.done known ⟨set, []⟩
  · rw [loadRoot_of_done (context g known) hdone, loadRoot_of_done (context g' known) hdone]
  · rcases hload : (loadRoot (context g known) g.root g.bytes).from ⟨set, []⟩ with ⟨r, q⟩
    rw [hload] at hok
    have hruns : Runs g' known [] (.file g'.root) ⟨set, []⟩ r q :=
      (runs_loadRoot (g := g) hdone hload).withResolver hext hok
    rw [(runs_loadRoot_iff hdone).mp hruns]

end Schemata
