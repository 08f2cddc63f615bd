import Treewalk.Machine.Basic
import Treewalk.Proofs.Heap.Lookups
import Treewalk.Proofs.Tree.Counterpart

/-!
Frames of two runs that part at some point. The frames that there were by then stay the same in both. Of those that came
since, some stand for one another in the two heaps and bind the same, and some are in one heap only, where nothing is
ever bound. Two chains lie side by side in layers, and at distances that go with each other they have frames that stand
for each other.
-/

namespace Treewalk

/-- Where two runs part: the heap by then, and the tables of the two. -/
structure Parting where
  heap : Heap
  table : Distances
  table' : Distances

/-- All frames of the chain are there when the runs part. -/
def Parting.Old (x : Parting) (f : FrameId) : Prop :=
  ∀ distance target, x.heap.ancestor? f distance = some target → target.index < x.heap.frames.size

theorem Parting.Old.index_lt {x : Parting} {f : FrameId} (hf : x.Old f) : f.index < x.heap.frames.size := hf 0 f rfl

/-- A frame that came since, with the frame around it: one in each heap that stand for each other, or in one only. -/
inductive Link where
  | shared (frame frame' parent parent' : FrameId)
  | first (frame parent : FrameId)
  | second (frame' parent' : FrameId)

variable {x : Parting} {links more : List Link}

/-- The chains of two frames lie side by side in layers. Behind them they go on in frames that both runs began with. -/
def Aligned (x : Parting) (links : List Link) : Layers → FrameId → FrameId → Prop
  | [], f, f' => f' = f ∧ x.Old f
  | .shared :: outer, f, f' => ∃ p p', .shared f f' p p' ∈ links ∧ Aligned x links outer p p'
  | .first :: outer, f, f' => ∃ p, .first f p ∈ links ∧ Aligned x links outer p f'
  | .second :: outer, f, f' => ∃ p', .second f' p' ∈ links ∧ Aligned x links outer f p'

theorem Aligned.mono {layers : Layers} {f f' : FrameId} (h : Aligned x links layers f f') (hsub : links ⊆ more) :
    Aligned x more layers f f' := by
  induction layers generalizing f f' with
  | nil => exact h
  | cons layer outer ih =>
    cases layer with
    | shared =>
      obtain ⟨p, p', hmem, hp⟩ := h
      exact ⟨p, p', hsub hmem, ih hp⟩
    | first =>
      obtain ⟨p, hmem, hp⟩ := h
      exact ⟨p, hsub hmem, ih hp⟩
    | second =>
      obtain ⟨p', hmem, hp⟩ := h
      exact ⟨p', hsub hmem, ih hp⟩

/-- Two frames that stand for each other: one that both runs began with, or two that came since. -/
def Opposite (x : Parting) (links : List Link) (f f' : FrameId) : Prop :=
  (f' = f ∧ x.Old f) ∨ ∃ p p', .shared f f' p p' ∈ links

theorem Aligned.opposite {layers : Layers} {f f' : FrameId} (h : Aligned x links layers f f') (hl : layers.Level) :
    Opposite x links f f' := by
  match layers, h, hl with
  | [], h, _ => exact .inl h
  | .shared :: _, ⟨p, p', hmem, _⟩, _ => exact .inr ⟨p, p', hmem⟩

namespace Heap

/-! ### Frames -/

/-- The frames of two heaps, of which those that came since are given by their links. -/
structure FramesAlike (x : Parting) (links : List Link) (h h' : Heap) : Prop where
  kept : ∀ id : FrameId, id.index < x.heap.frames.size → h'.frame? id = h.frame? id
  present : x.heap.frames.size ≤ h.frames.size ∧ x.heap.frames.size ≤ h'.frames.size
  inside : ∀ id p, x.Old id → h.parent? id = some p → x.Old p
  outermost : x.Old globalFrame ∧ h.parent? globalFrame = none
  shared : ∀ f f' p p', .shared f f' p p' ∈ links →
    x.heap.frames.size ≤ f.index ∧ x.heap.frames.size ≤ f'.index ∧ ∃ bindings,
      h.frame? f = some ⟨bindings, some p⟩ ∧ h'.frame? f' = some ⟨bindings, some p'⟩
  first : ∀ f p, .first f p ∈ links → h.parent? f = some p
  second : ∀ f' p', .second f' p' ∈ links → h'.parent? f' = some p'
  unique : ∀ f f' p p' g g' q q', .shared f f' p p' ∈ links → .shared g g' q q' ∈ links → (f = g ↔ f' = g')

theorem index_lt_of_frame? {h : Heap} {id : FrameId} {f : Frame} (hf : h.frame? id = some f) :
    id.index < h.frames.size :=
  (Array.getElem?_eq_some_iff.mp hf).1

theorem size_frames_define (h : Heap) (id : FrameId) (name : String) (value : Value) :
    (h.define id name value).frames.size = h.frames.size :=
  Array.size_modify ..

theorem frame?_addFrame_of_lt {h : Heap} {id : FrameId} (frame : Frame) (hlt : id.index < h.frames.size) :
    (h.addFrame frame).2.frame? id = h.frame? id := by
  rw [frame?_addFrame, if_neg]
  rintro rfl
  exact Nat.lt_irrefl _ hlt

theorem frame?_addFrame_of_some {h : Heap} {id : FrameId} {f : Frame} (frame : Frame) (hf : h.frame? id = some f) :
    (h.addFrame frame).2.frame? id = some f :=
  (frame?_addFrame_of_lt frame (index_lt_of_frame? hf)).trans hf

theorem parent?_addFrame_of_lt {h : Heap} {id : FrameId} (frame : Frame) (hlt : id.index < h.frames.size) :
    (h.addFrame frame).2.parent? id = h.parent? id := by
  unfold parent?
  rw [frame?_addFrame_of_lt frame hlt]

theorem size_frames_addFrame (h : Heap) (frame : Frame) : (h.addFrame frame).2.frames.size = h.frames.size + 1 :=
  Array.size_push ..

theorem parent?_addFrame_self (h : Heap) (bindings : Table Value) (parent : FrameId) :
    (h.addFrame ⟨bindings, some parent⟩).2.parent? (h.addFrame ⟨bindings, some parent⟩).1 = some parent := by
  rw [parent?, frame?_addFrame_self]
  rfl

/-- Where the chain begins outermost, only the outermost frame can bind a name. -/
theorem owner?_globalFrame {h : Heap} (hsize : 0 < h.frames.size) (hroot : h.parent? globalFrame = none)
    (name : String) :
    h.owner? globalFrame name = if (h.getOwn? globalFrame name).isSome then some globalFrame else none := by
  obtain ⟨n, hn⟩ := Nat.exists_eq_succ_of_ne_zero (Nat.ne_of_gt hsize)
  unfold owner? chain
  rw [hn, chainUpTo, hroot, List.find?_cons, List.find?_nil]
  cases (h.getOwn? globalFrame name).isSome with
  | true => rfl
  | false => rfl

namespace FramesAlike

variable {h h' : Heap}

theorem kept_parent? (ha : h.FramesAlike x links h') {id : FrameId} (hid : id.index < x.heap.frames.size) :
    h'.parent? id = h.parent? id := by
  unfold Heap.parent?
  rw [ha.kept id hid]

theorem parent?_shared (ha : h.FramesAlike x links h') {f f' p p' : FrameId} (hmem : .shared f f' p p' ∈ links) :
    h.parent? f = some p ∧ h'.parent? f' = some p' := by
  obtain ⟨-, -, bindings, hf, hf'⟩ := ha.shared f f' p p' hmem
  exact ⟨by rw [Heap.parent?, hf]; rfl, by rw [Heap.parent?, hf']; rfl⟩

/-- From a frame that both runs began with, the chains are the same. -/
theorem ancestor?_kept (ha : h.FramesAlike x links h') {id : FrameId} (hid : x.Old id) (distance : Nat) :
    Option.Rel (Opposite x links) (h.ancestor? id distance) (h'.ancestor? id distance) := by
  induction distance generalizing id with
  | zero => exact .some (.inl ⟨rfl, hid⟩)
  | succ distance ih =>
    unfold ancestor?
    rw [ha.kept_parent? hid.index_lt]
    cases hp : h.parent? id with
    | none => exact .none
    | some p => exact ih (ha.inside id p hid hp)

/-- At distances that go with each other there are frames that stand for each other. -/
theorem ancestor? (ha : h.FramesAlike x links h') {layers : Layers} {f f' : FrameId}
    (hf : Aligned x links layers f f') {distance distance' : Nat} (hd : layers.along distance = some distance') :
    Option.Rel (Opposite x links) (h.ancestor? f distance) (h'.ancestor? f' distance') := by
  induction layers generalizing f f' distance distance' with
  | nil =>
    obtain ⟨rfl, hold⟩ := hf
    obtain rfl : distance = distance' := Option.some.inj hd
    exact ha.ancestor?_kept hold distance
  | cons layer outer ih =>
    cases layer with
    | shared =>
      obtain ⟨p, p', hmem, hp⟩ := hf
      cases distance with
      | zero =>
        obtain rfl : 0 = distance' := Option.some.inj hd
        exact .some (.inr ⟨p, p', hmem⟩)
      | succ distance =>
        obtain ⟨e, he, rfl⟩ := Option.map_eq_some_iff.mp hd
        obtain ⟨hpf, hpf'⟩ := ha.parent?_shared hmem
        unfold Heap.ancestor?
        rw [hpf, hpf']
        exact ih hp he
    | first =>
      obtain ⟨p, hmem, hp⟩ := hf
      cases distance with
      | zero => cases hd
      | succ distance =>
        rw [Heap.ancestor?, ha.first f p hmem]
        exact ih hp hd
    | second =>
      obtain ⟨p', hmem, hp⟩ := hf
      obtain ⟨e, he, rfl⟩ := Option.map_eq_some_iff.mp hd
      rw [Heap.ancestor?.eq_2 h', ha.second f' p' hmem]
      exact ih hp he

theorem getOwn? (ha : h.FramesAlike x links h') {f f' : FrameId} (ho : Opposite x links f f') (name : String) :
    h'.getOwn? f' name = h.getOwn? f name := by
  rcases ho with ⟨rfl, hold⟩ | ⟨p, p', hmem⟩
  · rw [Heap.getOwn?, ha.kept f' hold.index_lt, Heap.getOwn?]
  · obtain ⟨-, -, bindings, hf, hf'⟩ := ha.shared f f' p p' hmem
    rw [Heap.getOwn?, hf', Heap.getOwn?, hf]
    rfl

theorem globalFrame_opposite (ha : h.FramesAlike x links h') : Opposite x links globalFrame globalFrame :=
  .inl ⟨rfl, ha.outermost.1⟩

theorem owner?_globalFrame (ha : h.FramesAlike x links h') (name : String) :
    h'.owner? globalFrame name = h.owner? globalFrame name := by
  have hroot' : h'.parent? globalFrame = none := (ha.kept_parent? ha.outermost.1.index_lt).trans ha.outermost.2
  rw [Heap.owner?_globalFrame (Nat.lt_of_lt_of_le ha.outermost.1.index_lt ha.present.2) hroot',
    Heap.owner?_globalFrame (Nat.lt_of_lt_of_le ha.outermost.1.index_lt ha.present.1) ha.outermost.2,
    ha.getOwn? ha.globalFrame_opposite]

/-- Binding a name in frames that stand for each other. -/
theorem define (ha : h.FramesAlike x links h') {f f' : FrameId} (ho : Opposite x links f f') (name : String)
    (value : Value) : (h.define f name value).FramesAlike x links (h'.define f' name value) := by
  -- A frame of before is bound on both sides or on none, and so are two that stand for each other.
  have kept : ∀ id : FrameId, id.index < x.heap.frames.size → (f = id ↔ f' = id) := by
    intro id hid
    rcases ho with ⟨rfl, -⟩ | ⟨p, p', hmem⟩
    · exact Iff.rfl
    · obtain ⟨hlt, hlt', -⟩ := ha.shared f f' p p' hmem
      constructor
      · rintro rfl
        omega
      · rintro rfl
        omega
  have shared : ∀ g g' q q', Link.shared g g' q q' ∈ links → (f = g ↔ f' = g') := by
    intro g g' q q' hg
    rcases ho with ⟨rfl, hold⟩ | ⟨p, p', hmem⟩
    · obtain ⟨hge, hge', -⟩ := ha.shared g g' q q' hg
      have hlt := hold.index_lt
      constructor
      · rintro rfl
        omega
      · rintro rfl
        omega
    · exact ha.unique f f' p p' g g' q q' hmem hg
  constructor
  · intro id hid
    rw [frame?_define, frame?_define, ha.kept id hid]
    simp only [kept id hid]
  · rw [size_frames_define, size_frames_define]
    exact ha.present
  · intro id p hid hp
    rw [parent?_define] at hp
    exact ha.inside id p hid hp
  · rw [parent?_define]
    exact ha.outermost
  · intro g g' q q' hg
    obtain ⟨hge, hge', bindings, hb, hb'⟩ := ha.shared g g' q q' hg
    rw [frame?_define, frame?_define, hb, hb', Option.map_some, Option.map_some]
    simp only [shared g g' q q' hg]
    refine ⟨hge, hge', ?_⟩
    by_cases hfg : f' = g'
    · exact ⟨bindings.put name value, by rw [if_pos hfg], by rw [if_pos hfg]⟩
    · exact ⟨bindings, by rw [if_neg hfg], by rw [if_neg hfg]⟩
  · intro g q hg
    rw [parent?_define]
    exact ha.first g q hg
  · intro g q hg
    rw [parent?_define]
    exact ha.second g q hg
  · exact ha.unique

/-- A new frame in the first heap only. -/
theorem addFirst (ha : h.FramesAlike x links h') (bindings : Table Value) (p : FrameId) :
    (h.addFrame ⟨bindings, some p⟩).2.FramesAlike x (.first (h.addFrame ⟨bindings, some p⟩).1 p :: links) h' := by
  have old : ∀ id : FrameId, id.index < x.heap.frames.size → id.index < h.frames.size := fun id hid =>
    Nat.lt_of_lt_of_le hid ha.present.1
  constructor
  · intro id hid
    rw [frame?_addFrame_of_lt _ (old id hid)]
    exact ha.kept id hid
  · rw [size_frames_addFrame]
    exact ⟨Nat.le_succ_of_le ha.present.1, ha.present.2⟩
  · intro id q hid hq
    rw [parent?_addFrame_of_lt _ (old id hid.index_lt)] at hq
    exact ha.inside id q hid hq
  · rw [parent?_addFrame_of_lt _ (old globalFrame ha.outermost.1.index_lt)]
    exact ha.outermost
  · intro g g' q q' hg
    obtain ⟨hge, hge', b, hb, hb'⟩ := ha.shared g g' q q' (by simpa using hg)
    exact ⟨hge, hge', b, frame?_addFrame_of_some _ hb, hb'⟩
  · intro g q hg
    rcases List.mem_cons.mp hg with heq | hg
    · cases heq
      exact parent?_addFrame_self h bindings p
    · exact (Grows.addFrame h _).parent? (ha.first g q hg)
  · intro g' q' hg
    exact ha.second g' q' (by simpa using hg)
  · intro g g' q q' k k' r r' hg hk
    exact ha.unique g g' q q' k k' r r' (by simpa using hg) (by simpa using hk)

/-- A new frame in the second heap only. -/
theorem addSecond (ha : h.FramesAlike x links h') (bindings : Table Value) (p' : FrameId) :
    h.FramesAlike x (.second (h'.addFrame ⟨bindings, some p'⟩).1 p' :: links) (h'.addFrame ⟨bindings, some p'⟩).2 := by
  constructor
  · intro id hid
    rw [frame?_addFrame_of_lt _ (Nat.lt_of_lt_of_le hid ha.present.2)]
    exact ha.kept id hid
  · rw [size_frames_addFrame]
    exact ⟨ha.present.1, Nat.le_succ_of_le ha.present.2⟩
  · exact ha.inside
  · exact ha.outermost
  · intro g g' q q' hg
    obtain ⟨hge, hge', b, hb, hb'⟩ := ha.shared g g' q q' (by simpa using hg)
    exact ⟨hge, hge', b, hb, frame?_addFrame_of_some _ hb'⟩
  · intro g q hg
    exact ha.first g q (by simpa using hg)
  · intro g' q' hg
    rcases List.mem_cons.mp hg with heq | hg
    · cases heq
      exact parent?_addFrame_self h' bindings p'
    · exact (Grows.addFrame h' _).parent? (ha.second g' q' hg)
  · intro g g' q q' k k' r r' hg hk
    exact ha.unique g g' q q' k k' r r' (by simpa using hg) (by simpa using hk)

/-- New frames that stand for each other. -/
theorem addShared (ha : h.FramesAlike x links h') (bindings : Table Value) (p p' : FrameId) :
    (h.addFrame ⟨bindings, some p⟩).2.FramesAlike x
      (.shared (h.addFrame ⟨bindings, some p⟩).1 (h'.addFrame ⟨bindings, some p'⟩).1 p p' :: links)
      (h'.addFrame ⟨bindings, some p'⟩).2 := by
  have old : ∀ id : FrameId, id.index < x.heap.frames.size → id.index < h.frames.size := fun id hid =>
    Nat.lt_of_lt_of_le hid ha.present.1
  -- The new frames stand for nothing that came before them.
  have fresh : ∀ g g' q q', .shared g g' q q' ∈ links →
      (h.addFrame ⟨bindings, some p⟩).1 ≠ g ∧ (h'.addFrame ⟨bindings, some p'⟩).1 ≠ g' := by
    intro g g' q q' hg
    obtain ⟨-, -, b, hb, hb'⟩ := ha.shared g g' q q' hg
    constructor
    · rintro rfl
      exact Nat.lt_irrefl _ (index_lt_of_frame? hb)
    · rintro rfl
      exact Nat.lt_irrefl _ (index_lt_of_frame? hb')
  constructor
  · intro id hid
    rw [frame?_addFrame_of_lt _ (old id hid), frame?_addFrame_of_lt _ (Nat.lt_of_lt_of_le hid ha.present.2)]
    exact ha.kept id hid
  · rw [size_frames_addFrame, size_frames_addFrame]
    exact ⟨Nat.le_succ_of_le ha.present.1, Nat.le_succ_of_le ha.present.2⟩
  · intro id q hid hq
    rw [parent?_addFrame_of_lt _ (old id hid.index_lt)] at hq
    exact ha.inside id q hid hq
  · rw [parent?_addFrame_of_lt _ (old globalFrame ha.outermost.1.index_lt)]
    exact ha.outermost
  · intro g g' q q' hg
    rcases List.mem_cons.mp hg with heq | hg
    · cases heq
      exact ⟨ha.present.1, ha.present.2, bindings, frame?_addFrame_self h _, frame?_addFrame_self h' _⟩
    · obtain ⟨hge, hge', b, hb, hb'⟩ := ha.shared g g' q q' hg
      exact ⟨hge, hge', b, frame?_addFrame_of_some _ hb, frame?_addFrame_of_some _ hb'⟩
  · intro g q hg
    exact (Grows.addFrame h _).parent? (ha.first g q (by simpa using hg))
  · intro g' q' hg
    exact (Grows.addFrame h' _).parent? (ha.second g' q' (by simpa using hg))
  · intro g g' q q' k k' r r' hg hk
    rcases List.mem_cons.mp hg with heq | hg <;> rcases List.mem_cons.mp hk with heq' | hk
    · cases heq
      cases heq'
      exact ⟨fun _ => rfl, fun _ => rfl⟩
    · cases heq
      exact ⟨fun e => absurd e (fresh k k' r r' hk).1, fun e => absurd e (fresh k k' r r' hk).2⟩
    · cases heq'
      exact ⟨fun e => absurd e.symm (fresh g g' q q' hg).1, fun e => absurd e.symm (fresh g g' q q' hg).2⟩
    · exact ha.unique g g' q q' k k' r r' hg hk

end FramesAlike

end Heap

end Treewalk
