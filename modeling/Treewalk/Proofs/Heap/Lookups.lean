import Treewalk.Proofs.Heap.Cells

/-!
Names in chains of frames. A walk from a frame outwards stops at the nearest frame that binds a name, which is the one at
the least distance of all that bind it, so that looking a name up and assigning to it come to the same by the walk and by
that distance. An assignment changes one binding. It is seen from all frames for which this is the nearest one, and from no
other.
-/

namespace Treewalk.Heap

/-- Frames that grew from one root: new ones are made inside others, and names are bound and assigned to. -/
inductive Forest : Heap → Prop where
  | root {h : Heap} : h.frames = #[{}] → Forest h
  | child {h : Heap} {id : FrameId} : Forest h → h.Has (.frame id) → Forest (h.addChild id).2
  | define {h : Heap} (id : FrameId) (name : String) (value : Value) : Forest h → Forest (h.define id name value)
  | assign {h h' : Heap} {id : FrameId} {name : String} {value : Value} : Forest h →
      h.assign? id name value = some h' → Forest h'
  | assignAt {h h' : Heap} {id : FrameId} {distance : Nat} {name : String} {value : Value} : Forest h →
      h.assignAt? id distance name value = some h' → Forest h'

/-- From the frame outwards, the owner is at the distance, and it is the first one that binds the name. -/
structure Nearest (h : Heap) (frame : FrameId) (name : String) (distance : Nat) (owner : FrameId) : Prop where
  reached : h.ancestor? frame distance = some owner
  owns : (h.getOwn? owner name).isSome
  least : ∀ d < distance, ∀ between, h.ancestor? frame d = some between → h.getOwn? between name = none

/-- The second heap differs from the first one in a single binding, which is the one that is found from the frames for
which its frame is the nearest. -/
structure Rebinds (h : Heap) (owner : FrameId) (name : String) (value : Value) (h' : Heap) : Prop where
  own : ∀ frame x, h'.getOwn? frame x = if frame = owner ∧ x = name then some value else h.getOwn? frame x
  seen : ∀ frame distance, h.Nearest frame name distance owner → h'.get? frame name = some value
  unseen : ∀ frame x, (x = name → ∀ distance, ¬h.Nearest frame name distance owner) → h'.get? frame x = h.get? frame x

/-! ### The two recursions -/

section Recursions
variable (h : Heap) (id : FrameId) (name : String)

/-- A frame that is not there binds nothing, and nothing is around it. -/
theorem getWithin_eq (bound : Nat) : h.getWithin name bound id =
    ((h.chainUpTo bound id).find? fun frame => (h.getOwn? frame name).isSome).bind (h.getOwn? · name) := by
  induction bound generalizing id with
  | zero => rfl
  | succ bound ih =>
    rw [getWithin, chainUpTo, List.find?_cons, getOwn?, parent?]
    cases hf : h.frame? id with
    | none => rfl
    | some f =>
      simp only [Option.bind_eq_bind, Option.bind_some]
      cases hown : f.bindings.get? name with
      | some value =>
        have hvalue : h.getOwn? id name = some value := by rw [getOwn?, hf, Option.bind_some, hown]
        exact hvalue.symm
      | none =>
        cases f.enclosing with
        | none => rfl
        | some parent => exact ih parent

theorem assignWithin_eq (value : Value) (bound : Nat) : h.assignWithin name value bound id =
    ((h.chainUpTo bound id).find? fun frame => (h.getOwn? frame name).isSome).elim (false, h)
      fun owner => (true, h.define owner name value) := by
  induction bound generalizing id with
  | zero => rfl
  | succ bound ih =>
    rw [assignWithin, chainUpTo, List.find?_cons, getOwn?, parent?]
    cases h.frame? id with
    | none => rfl
    | some f =>
      simp only [Option.bind_some]
      cases f.bindings.get? name with
      | some _ => rfl
      | none =>
        cases f.enclosing with
        | none => rfl
        | some parent => exact ih parent

theorem get?_eq : h.get? id name = (h.owner? id name).bind fun owner => h.getOwn? owner name :=
  h.getWithin_eq id name _

theorem assign_eq (value : Value) :
    h.assign id name value = (h.owner? id name).elim (false, h) fun owner => (true, h.define owner name value) :=
  h.assignWithin_eq id name value _

theorem assign?_eq (value : Value) : h.assign? id name value = (h.owner? id name).map (h.define · name value) := by
  rw [assign?, assign_eq]
  cases h.owner? id name with
  | none => rfl
  | some owner => rfl

end Recursions

/-! ### Frames in layers -/

/-- Around each frame is an older one. -/
def Layered (h : Heap) : Prop := ∀ id parent, h.parent? id = some parent → parent.index < id.index

theorem parent?_define (h : Heap) (id : FrameId) (name : String) (value : Value) (key : FrameId) :
    (h.define id name value).parent? key = h.parent? key := by
  rw [parent?, frame?_define, parent?]
  cases h.frame? key with
  | none => rfl
  | some f =>
    simp only [Option.map_some, Option.bind_some]
    split <;> rfl

theorem Layered.define {h : Heap} (hl : h.Layered) (id : FrameId) (name : String) (value : Value) :
    (h.define id name value).Layered := fun key parent hp => hl key parent (by rwa [parent?_define] at hp)

theorem Layered.addChild {h : Heap} (hl : h.Layered) {id : FrameId} (hid : h.Has (.frame id)) :
    (h.addChild id).2.Layered := by
  intro key parent hp
  obtain ⟨f, hf, he⟩ := exists_frame_of_parent? hp
  rw [Heap.addChild, frame?_addFrame] at hf
  split at hf
  · next heq =>
    cases hf
    cases he
    rw [heq]
    exact hid
  · exact hl key parent (Option.bind_eq_some_iff.mpr ⟨f, hf, he⟩)

theorem Forest.layered {h : Heap} (hh : h.Forest) : h.Layered := by
  induction hh with
  | @root h hroot =>
    intro id parent hp
    obtain ⟨f, hf, he⟩ := exists_frame_of_parent? hp
    rw [frame?, hroot, Array.getElem?_singleton] at hf
    split at hf
    · cases hf
      cases he
    · cases hf
  | child _ hid ih => exact ih.addChild hid
  | define id name value _ ih => exact ih.define id name value
  | assign _ hassign ih =>
    rw [assign?_eq] at hassign
    obtain ⟨owner, -, rfl⟩ := Option.map_eq_some_iff.mp hassign
    exact ih.define owner _ _
  | assignAt _ hassign ih =>
    obtain ⟨owner, -, rfl⟩ := Option.map_eq_some_iff.mp hassign
    exact ih.define owner _ _

/-! ### The walk outwards -/

section Walk
variable {h : Heap} (hl : h.Layered)
include hl

theorem chainUpTo_of_le {count more : Nat} {id : FrameId} (hid : id.index < count) (hle : count ≤ more) :
    h.chainUpTo more id = h.chainUpTo count id := by
  induction count generalizing id more with
  | zero => exact absurd hid (Nat.not_lt_zero _)
  | succ count ih =>
    obtain ⟨more, rfl⟩ := Nat.exists_eq_add_of_le' (Nat.le_trans (Nat.le_add_left 1 count) hle)
    rw [chainUpTo, chainUpTo]
    cases hp : h.parent? id with
    | none => rfl
    | some parent =>
      have hlt : parent.index < count := Nat.lt_of_lt_of_le (hl id parent hp) (Nat.le_of_lt_succ hid)
      exact congrArg (id :: ·) (ih hlt (Nat.le_of_succ_le_succ hle))

/-- The bound on the length of a walk is never met: behind its first frame it is the walk from the frame around that. -/
theorem chain_eq {id : FrameId} (hid : h.Has (.frame id)) :
    h.chain id = id :: match h.parent? id with
      | none => []
      | some parent => h.chain parent := by
  have hlt : id.index < h.frames.size := hid
  rw [chain]
  cases hsize : h.frames.size with
  | zero => exact absurd hlt (by rw [hsize]; exact Nat.not_lt_zero _)
  | succ count =>
    rw [chainUpTo]
    cases hp : h.parent? id with
    | none => rfl
    | some parent =>
      rw [hsize] at hlt
      have hparent : parent.index < count := Nat.lt_of_lt_of_le (hl id parent hp) (Nat.le_of_lt_succ hlt)
      have hrest : h.chain parent = h.chainUpTo count parent := by
        rw [chain, hsize, chainUpTo_of_le hl hparent (Nat.le_succ count)]
      exact congrArg (id :: ·) hrest.symm

/-- The nearest frame that binds a name is the first one, or else the nearest from the frame around it. -/
theorem owner?_eq (id : FrameId) (name : String) :
    h.owner? id name =
      if (h.getOwn? id name).isSome then some id else (h.parent? id).bind fun parent => h.owner? parent name := by
  by_cases hid : h.Has (.frame id)
  · rw [owner?, chain_eq hl hid, List.find?_cons]
    cases hown : (h.getOwn? id name).isSome with
    | true => rfl
    | false =>
      cases h.parent? id with
      | none => rfl
      | some parent => rfl
  · have hnone : h.frame? id = none := Array.getElem?_eq_none (Nat.not_lt.mp hid)
    have hown : h.getOwn? id name = none := by rw [getOwn?, hnone]; rfl
    have hparent : h.parent? id = none := by rw [parent?, hnone]; rfl
    rw [hown, hparent, owner?, chain]
    cases h.frames.size with
    | zero => rfl
    | succ count => simp only [chainUpTo, hparent, List.find?_cons, hown, Option.isSome_none, List.find?_nil]; rfl

theorem nearest_of_owner? {id owner : FrameId} {name : String} (ho : h.owner? id name = some owner) :
    ∃ d, h.Nearest id name d owner := by
  -- The frames around a frame are older, so the walk is followed by induction on the place of its first frame.
  obtain ⟨k, hk⟩ : ∃ k, id.index < k := ⟨_, Nat.lt_succ_self _⟩
  induction k generalizing id with
  | zero => exact absurd hk (Nat.not_lt_zero _)
  | succ k ih =>
    rw [owner?_eq hl] at ho
    split at ho
    · next hown =>
      cases ho
      exact ⟨0, rfl, hown, fun d hd => absurd hd (Nat.not_lt_zero _)⟩
    · next hown =>
      obtain ⟨parent, hp, ho⟩ := Option.bind_eq_some_iff.mp ho
      obtain ⟨d, hd⟩ := ih ho (Nat.lt_of_lt_of_le (hl id parent hp) (Nat.le_of_lt_succ hk))
      refine ⟨d + 1, by simp only [ancestor?, hp, Option.bind_some, hd.reached], hd.owns, fun e he between hb => ?_⟩
      cases e with
      | zero =>
        cases hb
        exact Option.not_isSome_iff_eq_none.mp hown
      | succ e =>
        simp only [ancestor?, hp, Option.bind_some] at hb
        exact hd.least e (Nat.lt_of_succ_lt_succ he) between hb

theorem Nearest.owner? {id owner : FrameId} {name : String} {d : Nat} (hn : h.Nearest id name d owner) :
    h.owner? id name = some owner := by
  induction d generalizing id with
  | zero =>
    cases hn.reached
    rw [owner?_eq hl, if_pos hn.owns]
  | succ d ih =>
    obtain ⟨parent, hp, hrest⟩ := Option.bind_eq_some_iff.mp hn.reached
    have hfirst : h.getOwn? id name = none := hn.least 0 (Nat.succ_pos d) id rfl
    have hparent : h.Nearest parent name d owner := by
      refine ⟨hrest, hn.owns, fun e he between hb => hn.least (e + 1) (Nat.succ_lt_succ he) between ?_⟩
      simp only [ancestor?, hp, Option.bind_some, hb]
    rw [owner?_eq hl, hfirst, hp]
    exact ih hparent

theorem owner?_eq_none_iff {id : FrameId} {name : String} :
    h.owner? id name = none ↔ ∀ d frame, h.ancestor? id d = some frame → h.getOwn? frame name = none := by
  constructor
  · intro ho d
    induction d generalizing id with
    | zero =>
      intro frame hframe
      cases hframe
      rw [owner?_eq hl] at ho
      exact Option.not_isSome_iff_eq_none.mp fun hown => by rw [if_pos hown] at ho; cases ho
    | succ d ih =>
      intro frame hframe
      obtain ⟨parent, hp, hframe⟩ := Option.bind_eq_some_iff.mp hframe
      rw [owner?_eq hl, hp] at ho
      split at ho
      · cases ho
      · exact ih ho frame hframe
  · intro hall
    cases ho : h.owner? id name with
    | none => rfl
    | some owner =>
      obtain ⟨d, hd⟩ := nearest_of_owner? hl ho
      have hnone := hall d owner hd.reached
      exact absurd hd.owns (by rw [hnone]; exact Bool.false_ne_true)

end Walk

/-! ### Reading and writing -/

/-- What is found is what the nearest frame binds. -/
theorem get?_eq_none_iff (h : Heap) (id : FrameId) (name : String) : h.get? id name = none ↔ h.owner? id name = none := by
  rw [get?_eq]
  cases ho : h.owner? id name with
  | none => simp
  | some owner =>
    have hown : (h.getOwn? owner name).isSome :=
      List.find?_some (p := fun frame => (h.getOwn? frame name).isSome) ho
    obtain ⟨value, hvalue⟩ := Option.isSome_iff_exists.mp hown
    simp [hvalue]

theorem Nearest.get? {h : Heap} (hl : h.Layered) {id owner : FrameId} {name : String} {d : Nat}
    (hn : h.Nearest id name d owner) : h.get? id name = h.getAt? id d name := by
  rw [get?_eq, hn.owner? hl, getAt?, hn.reached]

theorem getOwn?_define {h : Heap} {owner : FrameId} {name : String} (hown : (h.getOwn? owner name).isSome)
    (value : Value) (frame : FrameId) (x : String) :
    (h.define owner name value).getOwn? frame x =
      if frame = owner ∧ x = name then some value else h.getOwn? frame x := by
  rw [getOwn?, frame?_define, getOwn?]
  by_cases hframe : owner = frame
  · subst hframe
    obtain ⟨found, hfound⟩ := Option.isSome_iff_exists.mp hown
    obtain ⟨f, hf, -⟩ := Option.bind_eq_some_iff.mp hfound
    simp only [hf, Option.map_some, Option.bind_some, if_true, Table.get?_put, true_and, eq_comm (a := x)]
  · have hne : ¬(frame = owner ∧ x = name) := fun heq => hframe heq.1.symm
    simp only [if_neg hframe, if_neg hne, Option.map_id']

/-- Binding a name anew moves no name to another frame. -/
theorem owner?_define {h : Heap} {owner : FrameId} {name : String} (hown : (h.getOwn? owner name).isSome)
    (value : Value) (frame : FrameId) (x : String) :
    (h.define owner name value).owner? frame x = h.owner? frame x := by
  have hchain : ∀ count id, (h.define owner name value).chainUpTo count id = h.chainUpTo count id := by
    intro count
    induction count with
    | zero => exact fun _ => rfl
    | succ count ih =>
      intro id
      rw [chainUpTo, chainUpTo, parent?_define]
      simp only [ih]
  have hsize : (h.define owner name value).frames.size = h.frames.size := Array.size_modify
  rw [owner?, owner?, chain, chain, hsize, hchain]
  exact congrArg (List.find? · _) (funext fun key => isSome_getOwn?_define hown value key x)

theorem rebinds_define {h : Heap} (hl : h.Layered) {owner : FrameId} {name : String}
    (hown : (h.getOwn? owner name).isSome) (value : Value) :
    h.Rebinds owner name value (h.define owner name value) := by
  refine ⟨getOwn?_define hown value, fun frame d hn => ?_, fun frame x hx => ?_⟩
  · rw [get?_eq, owner?_define hown, hn.owner? hl, Option.bind_some, getOwn?_define hown, if_pos ⟨rfl, rfl⟩]
  · rw [get?_eq, owner?_define hown, get?_eq]
    cases ho : h.owner? frame x with
    | none => rfl
    | some found =>
      rw [Option.bind_some, Option.bind_some, getOwn?_define hown, if_neg]
      rintro ⟨rfl, rfl⟩
      obtain ⟨d, hd⟩ := nearest_of_owner? hl ho
      exact hx rfl d hd

/-- In frames that grew from a root, a name is found from a frame exactly if a frame from it outwards binds the name, and
it can be assigned to exactly if it is found; an assignment that fails leaves the heap as it is. The nearest frame that binds it is the one at the least distance: reading and
assigning come to the same as reading and assigning at that distance, and an assignment changes what is found from the
frames for which the same frame is the nearest one, and nothing else. -/
theorem chain_walk_agrees_with_distance {h : Heap} (hh : h.Forest) (frame : FrameId) (name : String) :
    (h.get? frame name = none ↔ ∀ d outer, h.ancestor? frame d = some outer → h.getOwn? outer name = none) ∧
    (∀ value, h.assign? frame name value = none ↔ h.get? frame name = none) ∧
    (∀ value, h.get? frame name = none → h.assign frame name value = (false, h)) ∧
    ∀ d owner, h.Nearest frame name d owner →
      h.get? frame name = h.getAt? frame d name ∧
      ∀ value, h.assign? frame name value = h.assignAt? frame d name value ∧
        ∃ h', h.assign? frame name value = some h' ∧ h.Rebinds owner name value h' := by
  have hl := hh.layered
  refine ⟨(get?_eq_none_iff h frame name).trans (owner?_eq_none_iff hl), fun value => ?_, fun value hnone => ?_,
    fun d owner hn => ?_⟩
  · rw [get?_eq_none_iff, assign?_eq, Option.map_eq_none_iff]
  · rw [assign_eq, (get?_eq_none_iff h frame name).mp hnone]
    rfl
  · have hassign : ∀ value, h.assign? frame name value = some (h.define owner name value) := fun value => by
      rw [assign?_eq, hn.owner? hl, Option.map_some]
    refine ⟨hn.get? hl, fun value => ⟨?_, _, hassign value, rebinds_define hl hn.owns value⟩⟩
    rw [hassign, assignAt?, hn.reached, Option.map_some]

/-! ### A binding that is hidden from one of two siblings -/

namespace Siblings

/-- A root, a frame in it, and two frames in that one, the first of which has a binding of its own. -/
def heap : Heap :=
  let h : Heap := { frames := #[{}] }
  let h := (h.define ⟨0⟩ "x" .nil).addChild ⟨0⟩ |>.2
  let h := (h.addChild ⟨1⟩).2
  let h := (h.addChild ⟨1⟩).2
  h.define ⟨2⟩ "x" (.bool false)

theorem forest : heap.Forest := by
  have hroot : Forest (Heap.define { frames := #[{}] } ⟨0⟩ "x" .nil) := .define _ _ _ (.root rfl)
  have hmiddle : Forest (Heap.addChild _ ⟨0⟩).2 := hroot.child Nat.one_pos
  have hfirst : Forest (Heap.addChild _ ⟨1⟩).2 := hmiddle.child Nat.one_lt_two
  have hsecond : Forest (Heap.addChild _ ⟨1⟩).2 := hfirst.child (Nat.lt_succ_of_lt Nat.one_lt_two)
  exact hsecond.define _ _ _

theorem nearest : heap.Nearest ⟨3⟩ "x" 2 ⟨0⟩ := by
  refine ⟨rfl, rfl, fun d hd between hb => ?_⟩
  match d, hd with
  | 0, _ =>
    cases hb
    rfl
  | 1, _ =>
    cases hb
    rfl

end Siblings

/-- An assignment from one of the siblings is seen from the frame around it, but not from the other sibling. -/
theorem hidden_from_sibling : Siblings.heap.Forest ∧ Siblings.heap.Nearest ⟨3⟩ "x" 2 ⟨0⟩ ∧
    ∃ h', Siblings.heap.assign? ⟨3⟩ "x" (.bool true) = some h' ∧ h'.get? ⟨1⟩ "x" = some (.bool true) ∧
      h'.get? ⟨2⟩ "x" = some (.bool false) := by
  obtain ⟨-, -, -, hnearest⟩ := chain_walk_agrees_with_distance Siblings.forest ⟨3⟩ "x"
  obtain ⟨-, hassign⟩ := hnearest 2 ⟨0⟩ Siblings.nearest
  obtain ⟨-, h', hh', hrebinds⟩ := hassign (.bool true)
  have hparent : Siblings.heap.Nearest ⟨1⟩ "x" 1 ⟨0⟩ := by
    refine ⟨rfl, rfl, fun d hd between hb => ?_⟩
    obtain rfl := Nat.lt_one_iff.mp hd
    cases hb
    rfl
  refine ⟨Siblings.forest, Siblings.nearest, h', hh', hrebinds.seen ⟨1⟩ 1 hparent, ?_⟩
  refine (hrebinds.unseen ⟨2⟩ "x" fun _ d hd => ?_).trans rfl
  -- The sibling binds the name itself.
  cases d with
  | zero => cases hd.reached
  | succ d => cases hd.least 0 (Nat.succ_pos d) ⟨2⟩ rfl

end Treewalk.Heap
