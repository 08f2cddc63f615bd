import Mathlib.Data.List.Nodup
import Mathlib.Data.List.Perm.Subperm
import Treewalk.Heap.Class

/-!
Chains of superclasses. A class that has one is followed through as many classes as the heap holds at most, so that the
bound on the search for a method is never met.
-/

namespace Treewalk

namespace Heap

/-- The classes from the given one upwards, to one that has no superclass. -/
inductive Chain (h : Heap) : ClassId → List Class → Prop where
  | root {id c} : h.class? id = some c → c.superclass = none → Chain h id [c]
  | sub {id c parent rest} : h.class? id = some c → c.superclass = some parent → Chain h parent rest →
      Chain h id (c :: rest)

namespace Chain

variable {h h' : Heap} {id : ClassId} {chain chain' : List Class}

theorem unique (a : h.Chain id chain) (b : h.Chain id chain') : chain = chain' := by
  induction a generalizing chain' with
  | root hc hroot =>
    cases b with
    | root hc' _ =>
      cases hc.symm.trans hc'
      rfl
    | sub hc' hsub _ =>
      cases hc.symm.trans hc'
      cases hroot.symm.trans hsub
  | sub hc hsub _ ih =>
    cases b with
    | root hc' hroot =>
      cases hc.symm.trans hc'
      cases hroot.symm.trans hsub
    | sub hc' hsub' hrest =>
      cases hc.symm.trans hc'
      cases hsub.symm.trans hsub'
      rw [ih hrest]

theorem mono (a : h.Chain id chain) (hclasses : ∀ id c, h.class? id = some c → h'.class? id = some c) :
    h'.Chain id chain := by
  induction a with
  | root hc hroot => exact .root (hclasses _ _ hc) hroot
  | sub hc hsub _ ih => exact .sub (hclasses _ _ hc) hsub ih

/-- The classes of a chain are different ones of the heap. -/
theorem places (a : h.Chain id chain) : ∃ ids : List Nat, ids.length = chain.length ∧ ids.Nodup ∧
    ∀ k ∈ ids, k < h.classes.size ∧ ∃ upper, h.Chain ⟨k⟩ upper ∧ upper.length ≤ chain.length := by
  have hplace : ∀ {id : ClassId} {c : Class}, h.class? id = some c → id.index < h.classes.size := fun hc =>
    (Array.getElem?_eq_some_iff.mp hc).1
  induction a with
  | @root id c hc hroot =>
    refine ⟨[id.index], rfl, List.nodup_singleton _, fun k hk => ?_⟩
    obtain rfl := List.mem_singleton.mp hk
    exact ⟨hplace hc, [c], .root hc hroot, Nat.le_refl _⟩
  | @sub id c parent rest hc hsub hrest ih =>
    obtain ⟨ids, hlength, hnodup, hids⟩ := ih
    have hchain : h.Chain id (c :: rest) := .sub hc hsub hrest
    refine ⟨id.index :: ids, congrArg (· + 1) hlength, List.nodup_cons.mpr ⟨fun hmem => ?_, hnodup⟩, fun k hk => ?_⟩
    · -- The class would stand in its own chain twice, with two chains of different lengths.
      obtain ⟨-, upper, hupper, hle⟩ := hids _ hmem
      have heq := hchain.unique hupper
      rw [← heq] at hle
      exact absurd hle (Nat.not_succ_le_self _)
    · rcases List.mem_cons.mp hk with rfl | hk
      · exact ⟨hplace hc, c :: rest, hchain, Nat.le_refl _⟩
      · obtain ⟨hlt, upper, hupper, hle⟩ := hids k hk
        exact ⟨hlt, upper, hupper, Nat.le_succ_of_le hle⟩

theorem length_le (a : h.Chain id chain) : chain.length ≤ h.classes.size := by
  obtain ⟨ids, hlength, hnodup, hids⟩ := a.places
  have hsubset : ids ⊆ List.range h.classes.size := fun k hk => List.mem_range.mpr (hids k hk).1
  have hle := (List.subperm_of_subset hnodup hsubset).length_le
  rwa [hlength, List.length_range] at hle

theorem ancestryUpTo (a : h.Chain id chain) {count : Nat} (hcount : chain.length ≤ count) :
    h.ancestryUpTo count id = chain := by
  induction a generalizing count with
  | root hc hroot =>
    obtain ⟨count, rfl⟩ := Nat.exists_eq_add_of_le' hcount
    simp only [List.length_singleton, Heap.ancestryUpTo, hc, hroot]
  | sub hc hsub _ ih =>
    obtain ⟨count, rfl⟩ := Nat.exists_eq_add_of_le' (Nat.le_trans (Nat.le_add_left 1 _) hcount)
    simp only [Heap.ancestryUpTo, hc, hsub, ih (Nat.le_of_succ_le_succ hcount)]

theorem ancestry (a : h.Chain id chain) : h.ancestry id = chain := a.ancestryUpTo a.length_le

/-- The method under a name is that of the first class of the chain that has one. -/
theorem findMethod? (a : h.Chain id chain) (name : String) :
    h.findMethod? id name = chain.findSome? (·.methods.get? name) := by rw [Heap.findMethod?, a.ancestry]

end Chain

end Heap

end Treewalk
