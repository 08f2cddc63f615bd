import Treewalk.Proofs.Machine.Parallel
import Treewalk.Proofs.Scope.Agreement
import Treewalk.Proofs.Scope.Layers

/-!
Two runs that part. A machine that stands in frames which mirror scopes is alike to itself with another table, as long as
that table has the same distances for all that was checked so far: what the machine holds is its own counterpart.
-/

namespace Treewalk

open Resolver

variable {known : List Visit} {h : Heap} {d d' : Distances}

/-! ### Frames -/

theorem Parting.Old.parent {x : Parting} {f p : FrameId} (hf : x.Old f) (hp : x.heap.parent? f = some p) : x.Old p := by
  intro distance target htarget
  refine hf (distance + 1) target ?_
  rw [Heap.ancestor?, hp]
  exact htarget

theorem Parting.Old.of_parent? {x : Parting} {f : FrameId} (hf : f.index < x.heap.frames.size)
    (hp : ∀ p, x.heap.parent? f = some p → x.Old p) : x.Old f := by
  intro distance target htarget
  cases distance with
  | zero =>
    cases htarget
    exact hf
  | succ distance =>
    obtain ⟨p, hparent, htarget⟩ := Option.bind_eq_some_iff.mp htarget
    exact hp p hparent distance target htarget

namespace Heap

theorem Sound.old_globalFrame (hs : h.Sound known) : Parting.Old ⟨h, d, d'⟩ globalFrame := by
  obtain ⟨f, hf, -⟩ := hs.outermost
  refine .of_parent? (index_lt_of_frame? hf) fun p hp => ?_
  cases hs.parent?_globalFrame.symm.trans hp

/-- Frames that mirror scopes are all there. -/
theorem Mirrors.old {around : List Initializing} {frame : FrameId} {names : List (List String)} (hs : h.Sound known)
    (hm : h.Mirrors around frame names) : Parting.Old ⟨h, d, d'⟩ frame := by
  induction names generalizing frame with
  | nil =>
    obtain rfl : frame = globalFrame := hm
    exact hs.old_globalFrame
  | cons scope outer ih =>
    obtain ⟨f, hf⟩ := hm.exists_frame (List.cons_ne_nil scope outer)
    obtain ⟨-, -, parent, hparent, hm⟩ := hm
    refine .of_parent? (index_lt_of_frame? hf) fun p hp => ?_
    cases hparent.symm.trans hp
    exact ih hm

theorem Sound.framesAlike (hs : h.Sound known) : h.FramesAlike ⟨h, d, d'⟩ [] h where
  kept _ _ := rfl
  present := ⟨Nat.le_refl _, Nat.le_refl _⟩
  inside _ _ hid hp := hid.parent hp
  outermost := ⟨hs.old_globalFrame, hs.parent?_globalFrame⟩
  shared := nofun
  first := nofun
  second := nofun
  unique := nofun

end Heap

/-! ### Functions, classes and machines -/

theorem Distances.Holds.of_subset {visits : List Visit} (hd : d.Holds known) (hsub : visits ⊆ known) : d.Holds visits :=
  fun v hv => hd v (hsub hv)

/-- A routine that was checked is its own counterpart, by any two tables that have its distances. -/
theorem Routine.Checked.matches_self {around : List Initializing} {kind : Enclosing} {r : Resolver} {routine : Routine}
    {layers : Layers} (hc : routine.Checked known around kind r) (ha : r.Abreast layers r) (hd : d.Holds known)
    (hd' : d'.Holds known) : Routine.Matches d d' layers routine routine := by
  have hself : routine.relabel (.identities fun n => n) = routine := routine.relabel_same
  have hcopy : d'.Holds ((routine.relabel (.identities fun n => n)).visits around kind r) := by
    rw [hself]
    exact hd'.of_subset hc.visits
  have hmatches := routine.matches_copy ha hc.shaped (hd.of_subset hc.visits) hcopy
  rwa [hself] at hmatches

/-- Two checks may differ in their tables. -/
theorem Resolver.Abreast.withTable (r : Resolver) (d : Distances) : r.Abreast [] { r with distances := d } :=
  ⟨rfl, rfl, rfl, rfl, fun hc => hc⟩

/-- The innermost scope of a check lies beside itself. -/
theorem Resolver.Abreast.self_cons {r : Resolver} {scope : List String} {outer : List (List String)}
    (hr : r.names = scope :: outer) : r.Abreast [.shared] r := by
  obtain ⟨inner, rest, hs, -, -⟩ := List.map_eq_cons_iff.mp hr
  exact ⟨⟨inner, rest, rest, hs, hs, rfl⟩, rfl, rfl, rfl, fun hc => hc⟩

theorem Heap.Sound.alike (hs : h.Sound known) (hd : d.Holds known) (hd' : d'.Holds known) :
    h.Alike ⟨h, d, d'⟩ [] h := by
  refine ⟨hs.framesAlike, ⟨rfl, fun i => ?_⟩, ⟨rfl, fun i => ?_⟩, rfl⟩
  · cases hf : h.closures[i]? with
    | none => exact .none
    | some f =>
      obtain ⟨around, kind, r, hchecked, hm⟩ := hs.closures ⟨i⟩ f hf
      exact .some ⟨rfl, [], ⟨rfl, hm.old hs⟩, fun _ => trivial, hchecked.matches_self (.withTable r r.distances) hd hd'⟩
  · cases hc : h.classes[i]? with
    | none => exact .none
    | some c =>
      refine .some ⟨rfl, rfl, .self fun entry hentry => ?_⟩
      obtain ⟨around, kind, r, outer, hchecked, hnames, hm⟩ := hs.methods ⟨i⟩ c hc entry hentry
      exact ⟨rfl, [], ⟨rfl, hm.old hs⟩, fun _ => trivial, hchecked.matches_self (.self_cons hnames) hd hd'⟩

/-- A machine that stands in its frames is alike to itself with another table. -/
theorem Machine.Stands.parallel {around : List Initializing} {names : List (List String)} {m : Machine}
    (hm : m.Stands known around names) (hd' : d'.Holds known) :
    m.Parallel ⟨m.heap, m.distances, d'⟩ [] [] { m with distances := d' } where
  heap := hm.sound.heap.alike hm.sound.recorded hd'
  frame := ⟨rfl, hm.mirrors.old hm.sound.heap⟩
  tables := ⟨rfl, rfl⟩
  depth := rfl
  sink := rfl
  input := rfl
  clock := rfl
  host := rfl
  notices := rfl

end Treewalk
