import Treewalk.Proofs.Heap.Copying
import Treewalk.Proofs.Machine.Activations
import Treewalk.Proofs.Session.Superclasses

/-!
What a call can change. A call comes by its callee and its arguments, by what the global frame binds, and by what can be
reached from these. Frames and instances that cannot be reached so, it leaves as they are, however deep the calls within it
go and however it ends; and the frame of the caller is not among its means. An instance leads to its class: its methods can
be called through the class before they are copied into its fields.
-/

namespace Treewalk

/-! ### What can be reached -/

/-- The cell can be reached along the links from the values or from the global frame. -/
inductive Cell.Reached (links : Cell → Cell → Prop) (values : List Value) : Cell → Prop where
  | outermost : Reached links values (.frame globalFrame)
  | value {v p} : v ∈ values → v.Mentions p → Reached links values p
  | link {p q} : Reached links values p → links p q → Reached links values q

namespace Heap

variable {base : Heap} {values : List Value}

/-- The cells that a call may come by: of those that there were, the ones that can be reached. -/
def Region (base : Heap) (values : List Value) (p : Cell) : Prop := base.Has p → Cell.Reached base.Links values p

theorem closed_region : base.Closed (base.Region values) := fun _ _ hp hl _ => .link (hp hl.has) hl

/-- Frames and instances outside of the region are the same in both heaps. -/
structure Spares (Q : Cell → Prop) (h h' : Heap) : Prop where
  cells : ∀ p, h.Has p → h'.Has p
  frames : ∀ id, ¬Q (.frame id) → h'.frame? id = h.frame? id
  instances : ∀ id, ¬Q (.object id) → h'.instance? id = h.instance? id

/-- What was not there before lies in the region. -/
theorem region_of_new {h : Heap} {p : Cell} (hs : base.Spares (base.Region values) h) (hp : ¬h.Has p) :
    base.Region values p := fun hbase => absurd (hs.cells p hbase) hp

theorem has_of_outside {h : Heap} {p : Cell} (hs : base.Spares (base.Region values) h)
    (hp : ¬base.Region values p) : h.Has p := by
  by_contra hnew
  exact hp (region_of_new hs hnew)

instance : Custody (fun _ => base.Region values) (Spares (base.Region values)) base where
  refl h := ⟨fun _ => id, fun _ _ => rfl, fun _ _ => rfl⟩
  trans a b := ⟨fun p hp => b.cells p (a.cells p hp), fun id hid => (b.frames id hid).trans (a.frames id hid),
    fun id hid => (b.instances id hid).trans (a.instances id hid)⟩
  mono _ hp := hp
  earlier _ _ hp := hp
  define {h id name value} _ hid _ := by
    refine ⟨fun _ hp => hp.define id name value, fun key hkey => ?_, fun _ _ => rfl⟩
    have hne : ¬id = key := fun heq => hkey (heq ▸ hid)
    simp [frame?_define, hne]
  setField {h id name value} _ hid _ := by
    refine ⟨fun _ hp => hp.setField id name value, fun _ _ => rfl, fun key hkey => ?_⟩
    have hne : ¬id = key := fun heq => hkey (heq ▸ hid)
    simp [instance?_setField, hne]
  addFrame {h f} hs _ := by
    refine ⟨⟨fun _ hp => hp.addFrame f, fun key hkey => ?_, fun _ _ => rfl⟩, region_of_new hs (Nat.lt_irrefl _)⟩
    have hold : key.index < h.frames.size := has_of_outside hs hkey
    rw [frame?, addFrame, Array.getElem?_push, if_neg (Nat.ne_of_lt hold), frame?]
  addClosure {h f} hs _ :=
    ⟨⟨fun _ hp => hp.addClosure f, fun _ _ => rfl, fun _ _ => rfl⟩, region_of_new hs (Nat.lt_irrefl _)⟩
  addClass {h c} hs _ :=
    ⟨⟨fun _ hp => hp.addClass c, fun _ _ => rfl, fun _ _ => rfl⟩, region_of_new hs (Nat.lt_irrefl _)⟩
  addInstance {h i} hs _ := by
    refine ⟨⟨fun _ hp => hp.addInstance i, fun _ _ => rfl, fun key hkey => ?_⟩, region_of_new hs (Nat.lt_irrefl _)⟩
    have hold : key.index < h.instances.size := has_of_outside hs hkey
    rw [instance?, addInstance, Array.getElem?_push, if_neg (Nat.ne_of_lt hold), instance?]

end Heap

/-! ### Calls and the frame of the caller -/

/-- The run is the same in every frame, and comes back to it. -/
def Run.Frameless {α : Type} (r : Run α) : Prop :=
  ∀ m frame, r (m.inFrame frame) = (r m).onMachine (Machine.inFrame frame)

namespace Run.Frameless

variable {α β : Type} {r : Run α}

theorem pure (a : α) : Frameless (Pure.pure a : Run α) := fun _ _ => rfl

theorem fail (line : Nat) (fault : RuntimeFault) : Frameless (Run.fail line fault : Run α) := fun _ _ => rfl

theorem onHeap (f : Heap → α × Heap) : Frameless (Run.onHeap f) := fun _ _ => rfl

theorem look {f : Machine → α} (hf : ∀ m frame, f (m.inFrame frame) = f m) : Frameless (Run.look f) := fun m frame => by
  simp only [Run.look, hf]
  rfl

theorem bind {k : α → Run β} (hr : r.Frameless) (hk : ∀ a, (k a).Frameless) : Frameless (r >>= k) := fun m frame => by
  show Run.bind r k (m.inFrame frame) = (Run.bind r k m).onMachine (Machine.inFrame frame)
  simp only [Run.bind, hr m frame]
  cases r m with
  | done a n => exact hk a n frame
  | stopped s n => rfl

theorem inFrame (inner : FrameId) (r : Run α) : Frameless (Run.inFrame inner r) := fun m frame => by
  have hsame : { m.inFrame frame with frame := inner } = { m with frame := inner } := rfl
  simp only [Run.inFrame, hsame]
  cases r { m with frame := inner } <;> rfl

theorem nested (line : Nat) (hr : r.Frameless) : Frameless (Run.nested line r) := fun m frame => by
  have hsame : r { m.inFrame frame with depth := (m.inFrame frame).depth + 1 } =
      (r { m with depth := m.depth + 1 }).onMachine (Machine.inFrame frame) := hr { m with depth := m.depth + 1 } frame
  simp only [Run.nested, hsame]
  by_cases hd : depthLimit ≤ m.depth
  · rw [if_pos hd, if_pos (show depthLimit ≤ (m.inFrame frame).depth from hd)]
    rfl
  · rw [if_neg hd, if_neg (show ¬depthLimit ≤ (m.inFrame frame).depth from hd)]
    cases r { m with depth := m.depth + 1 } <;> rfl

theorem receiver (f : Closure) : Frameless (Evaluation.receiver f) := by
  refine .bind (.look fun _ _ => rfl) fun value? => ?_
  cases value? with
  | none => exact .fail _ _
  | some value => exact .pure value

theorem result (f : Closure) {body : Run Unit} (hbody : body.Frameless) : Frameless (Evaluation.result f body) :=
  fun m frame => by
    simp only [Evaluation.result, hbody m frame]
    cases body m with
    | done u n =>
      simp only [Outcome.onMachine]
      by_cases hf : f.isInitializer
      · simp only [if_pos hf]
        exact receiver f n frame
      · simp only [if_neg hf]
    | stopped s n => cases s <;> rfl

theorem callPrimitive (primitive : Primitive) (arguments : List Value) (line : Nat) :
    Frameless (Run.callPrimitive primitive arguments line) := by
  have hnative : ∀ result : Except NativeFault Value, Frameless (Run.ofNative result line) := by
    intro result
    cases result with
    | ok value => exact .pure value
    | error fault => exact .fail _ _
  cases primitive with
  | clock => exact fun _ _ => rfl
  | readWord =>
    intro m frame
    simp only [Run.callPrimitive, Run.readWord, Machine.inFrame]
    rcases m.input.takeWord with ⟨reason | (_ | text), input⟩ <;> rfl
  | host index =>
    intro m frame
    simp only [Run.callPrimitive, Run.callHost, Machine.inFrame]
    cases m.host[index]? with
    | none => rfl
    | some f => dsimp only; cases f arguments <;> rfl
  | _ => exact hnative _

variable (p : Performer)

theorem apply (f : Closure) (arguments : List Value) : Frameless (Evaluation.apply p f arguments) :=
  .bind (.onHeap _) fun frame => .result f (.inFrame frame _)

theorem instantiate (classId : ClassId) (arguments : List Value) (line : Nat) :
    Frameless (Evaluation.instantiate p classId arguments line) := by
  refine .bind (.onHeap _) fun id => .bind (.look fun _ _ => rfl) fun method? => ?_
  have hrest : ∀ u : Unit, Frameless (Run.onHeap (fun h => ((), h.copyLineage id classId)) >>= fun _ =>
      (Pure.pure (Value.object id) : Run Value)) := fun _ => .bind (.onHeap _) fun _ => .pure _
  cases method? with
  | none => exact hrest ()
  | some method =>
    refine .bind (.onHeap _) fun bound => .bind ?_ hrest
    exact .bind (.nested line (apply p bound arguments)) fun _ => .pure _

/-- A call makes no use of the frame of its caller. -/
theorem invocation (callee : Value) (arguments : List Value) (line : Nat) :
    Frameless (Evaluation.invocation p callee arguments line) := by
  cases callee with
  | native f =>
    unfold Evaluation.invocation
    dsimp only
    split
    · exact callPrimitive f.primitive arguments line
    · exact .fail _ _
  | closure id =>
    refine .bind (.look fun _ _ => rfl) fun f? => ?_
    cases f? with
    | none => exact .fail _ _
    | some f =>
      dsimp only
      split
      · exact .nested line (apply p f arguments)
      · exact .fail _ _
  | classValue id =>
    refine .bind (.look fun _ _ => rfl) fun arity => ?_
    split
    · exact instantiate p id arguments line
    · exact .fail _ _
  | _ => exact .fail _ _

theorem call (steps : Nat) (callee : Value) (arguments : List Value) (line : Nat) :
    Frameless (perform steps (.invoke callee arguments line)) := by
  cases steps with
  | zero => exact fun _ _ => rfl
  | succ steps => exact invocation (perform steps) callee arguments line

end Run.Frameless

/-- What a call cannot reach, it spares. -/
theorem perform_spares (steps : Nat) (callee : Value) (arguments : List Value) (line : Nat) (m : Machine) :
    m.heap.Spares (m.heap.Region (callee :: arguments)) (perform steps (.invoke callee arguments line) m).machine.heap := by
  -- In the global frame the caller adds nothing to what can be reached.
  let caller := m.inFrame globalFrame
  have hheld : caller.Held (fun _ => m.heap.Region (callee :: arguments)) (Heap.Spares (m.heap.Region (callee :: arguments)))
      m.heap :=
    ⟨⟨Heap.Custody.refl (fun _ => m.heap.Region (callee :: arguments)) m.heap _, Heap.closed_region⟩,
      fun _ => .outermost, fun _ => .outermost⟩
  have hwithin : ∀ v ∈ callee :: arguments, v.Within (m.heap.Region (callee :: arguments)) :=
    fun v hv _ hp _ => .value hv hp
  have hcall : Activity.Held (fun _ => m.heap.Region (callee :: arguments))
      (Heap.Spares (m.heap.Region (callee :: arguments))) m.heap ⟨steps, .invoke callee arguments line, caller⟩ :=
    ⟨hheld, hwithin callee List.mem_cons_self, fun v hv => hwithin v (List.mem_cons_of_mem _ hv)⟩
  have hkept := hcall.secures.kept
  have hsame : perform steps (.invoke callee arguments line) caller = _ :=
    Run.Frameless.call steps callee arguments line m globalFrame
  simp only [Activity.outcome, hsame, Outcome.machine_onMachine] at hkept
  exact hkept

/-- A call changes no frame and no instance that cannot be reached from its callee, its arguments and the global frame, and
the frame of its parameters is a new one. In the course of a program all that runs does so in the frame that was opened last
below it, by a block or by the call of a function. Each of these frames is new, and no other activity opens it; so no two
activations of a function have frames for parameters or local names in common. -/
theorem unreached_cells_are_left_alone (steps : Nat) (m : Machine) :
    (∀ callee arguments line h', h' = (perform steps (.invoke callee arguments line) m).machine.heap →
      (∀ id f, m.heap.frame? id = some f → ¬Cell.Reached m.heap.Links (callee :: arguments) (.frame id) →
        h'.frame? id = some f) ∧
      (∀ id i, m.heap.instance? id = some i → ¬Cell.Reached m.heap.Links (callee :: arguments) (.object id) →
        h'.instance? id = some i) ∧
      ∀ frame, Activity.opens? ⟨steps, .invoke callee arguments line, m⟩ = some frame →
        ¬m.heap.Has (.frame frame) ∧ h'.Has (.frame frame)) ∧
    ∀ program a outer, m.Underway steps program (a :: outer) →
      a.machine.frame = (outer.findSome? Activity.opens?).getD m.frame ∧
      ∀ frame, a.opens? = some frame →
        (¬m.heap.Has (.frame frame) ∧ (m.interpret steps program).2.heap.Has (.frame frame)) ∧
        ∀ b below, m.Underway steps program (b :: below) → b.opens? = some frame → a :: outer = b :: below := by
  refine ⟨?_, fun program a outer ha => ⟨ha.frame_eq, fun frame hf => ⟨?_, fun b below hb hfb => ?_⟩⟩⟩
  · rintro callee arguments line _ rfl
    have hspares := perform_spares steps callee arguments line m
    refine ⟨fun id f hid hunreached => ?_, fun id i hid hunreached => ?_, fun frame hf => ?_⟩
    · have hhas : m.heap.Has (.frame id) := (Array.getElem?_eq_some_iff.mp hid).1
      exact (hspares.frames id fun hregion => hunreached (hregion hhas)).trans hid
    · have hhas : m.heap.Has (.object id) := (Array.getElem?_eq_some_iff.mp hid).1
      exact (hspares.instances id fun hregion => hunreached (hregion hhas)).trans hid
    · obtain ⟨hbefore, hafter⟩ := Activity.passes_of_opens? hf
      exact ⟨Nat.not_lt.mpr hbefore, hafter⟩
  · obtain ⟨hbefore, hafter⟩ := ha.opens?_new hf
    exact ⟨Nat.not_lt.mpr hbefore, hafter⟩
  · exact ha.opens?_unique hb hf hfb

/-! ### Links, computed -/

mutual

/-- The cells that the value mentions. -/
def Value.cells : Value → List Cell
  | .closure id => [.function id]
  | .classValue id => [.kind id]
  | .object id => [.object id]
  | .array items => cellsOfAll items
  | _ => []

def Value.cellsOfAll : List Value → List Cell
  | [] => []
  | value :: rest => value.cells ++ cellsOfAll rest

end

theorem Value.mem_cellsOfAll {items : List Value} {v : Value} {p : Cell} (hv : v ∈ items) (hp : p ∈ v.cells) :
    p ∈ cellsOfAll items := by
  induction items with
  | nil => cases hv
  | cons value rest ih =>
    rw [cellsOfAll, List.mem_append]
    rcases List.mem_cons.mp hv with rfl | hv
    · exact Or.inl hp
    · exact Or.inr (ih hv)

theorem Value.Mentions.mem_cells {v : Value} {p : Cell} (h : v.Mentions p) : p ∈ v.cells := by
  induction h with
  | closure id => exact List.mem_singleton_self _
  | classValue id => exact List.mem_singleton_self _
  | object id => exact List.mem_singleton_self _
  | item hv _ ih => exact Value.mem_cellsOfAll hv ih

def Table.cells (t : Table Value) : List Cell := t.entries.flatMap (·.2.cells)

theorem Table.Mentions.mem_cells {t : Table Value} {p : Cell} (h : t.Mentions p) : p ∈ t.cells := by
  obtain ⟨name, value, hmem, hp⟩ := h
  exact List.mem_flatMap.mpr ⟨_, hmem, hp.mem_cells⟩

/-- The cells that what the heap has at a place mentions. -/
def Heap.cells (h : Heap) : Cell → List Cell
  | .frame id => (h.frame? id).elim [] fun f => f.bindings.cells ++ (f.enclosing.map Cell.frame).toList
  | .function id => (h.closure? id).elim [] fun f => [.frame f.frame]
  | .kind id => (h.class? id).elim [] fun c =>
    (c.superclass.map Cell.kind).toList ++ c.methods.entries.map fun entry => .frame entry.2.frame
  | .object id => (h.instance? id).elim [] fun i => .kind i.classId :: i.fields.cells

theorem Heap.Links.mem_cells {h : Heap} {p q : Cell} (hl : h.Links p q) : q ∈ h.cells p := by
  cases hl with
  | frame hf hq =>
    rw [cells, hf, Option.elim_some, List.mem_append]
    rcases hq with hq | ⟨parent, heq, rfl⟩
    · exact Or.inl hq.mem_cells
    · exact Or.inr (by simp [heq])
  | function hf hq =>
    rw [cells, hf]
    exact List.mem_singleton.mpr hq
  | kind hc hq =>
    rw [cells, hc, Option.elim_some, List.mem_append]
    rcases hq with ⟨parent, heq, rfl⟩ | ⟨name, f, hmem, hq⟩
    · exact Or.inl (by simp [heq])
    · exact Or.inr (List.mem_map.mpr ⟨_, hmem, hq.symm⟩)
  | object hi hq =>
    rw [cells, hi, Option.elim_some, List.mem_cons]
    exact hq.imp_right Table.Mentions.mem_cells

/-- Links lead nowhere but to the listed cells. -/
theorem Cell.Reached.mem {links : Cell → Cell → Prop} {values : List Value} {p : Cell} (h : Reached links values p)
    {reached : List Cell} (hglobal : .frame globalFrame ∈ reached) (hvalues : ∀ v ∈ values, ∀ q ∈ v.cells, q ∈ reached)
    (hlinks : ∀ p ∈ reached, ∀ q, links p q → q ∈ reached) : p ∈ reached := by
  induction h with
  | outermost => exact hglobal
  | value hv hp => exact hvalues _ hv _ hp.mem_cells
  | link _ hl ih => exact hlinks _ ih _ hl

/-! ### An instance without its methods -/

/-- Links, where an instance leads to what its fields mention only. -/
def Heap.FieldLinks (h : Heap) (p q : Cell) : Prop :=
  h.Links p q ∧ ∀ id i, p = .object id → h.instance? id = some i → i.fields.Mentions q

namespace Leaked

/-- The initializer makes its instance known and fails, so that no methods are copied into the fields of the instance. -/
def source : List UInt8 := Text.encode
  "var g; fun h() \x7b g.m(); \x7d \x7b var x; class C \x7b init() \x7b g = this; nil(); \x7d m() \x7b print x; x = true; \x7d \x7d C(); \x7d"

/-- The call of the function. -/
def call : Task := .invoke (.closure ⟨0⟩) [] 1

/-- What can be reached behind the source without the step from the instance to its class. -/
def near : List Cell := [.object ⟨0⟩, .frame globalFrame, .function ⟨0⟩]

/-- What that step adds: the class, and the frame of the block, where its methods were made. -/
def far : List Cell := near ++ [.kind ⟨0⟩, .frame ⟨1⟩]

/-- What the source leaves. The instance has no fields. The name that a method of its class assigns to is bound in the frame
of the block, and another frame binds the receiver of the initializer. -/
def Left (m : Machine) : Prop :=
  (∀ p ∈ far, ∀ q ∈ m.heap.cells p, q ∈ far) ∧ (∀ p ∈ near.tail, ∀ q ∈ m.heap.cells p, q ∈ near) ∧
  (m.heap.instance? ⟨0⟩).map (·.fields.cells) = some [] ∧
  (m.heap.getOwn? globalFrame "h").map Value.cells = some [.function ⟨0⟩] ∧
  (m.heap.getOwn? ⟨1⟩ "x").map Value.truthy = some false ∧
  ((perform 8 call m).machine.heap.getOwn? ⟨1⟩ "x").map Value.truthy = some true ∧
  (m.heap.getOwn? ⟨2⟩ "this").map Value.cells = some [.object ⟨0⟩]

instance (m : Machine) : Decidable (Left m) := inferInstanceAs (Decidable (_ ∧ _ ∧ _ ∧ _ ∧ _ ∧ _ ∧ _))

theorem run_source : ∃ diagnostics s, Session.run 12 {} source = some (diagnostics, s) ∧ Left s.machine := by
  have hrun : (Session.run 12 {} source).any (fun x => decide (Left x.2.machine)) = true := by decide +kernel
  cases hs : Session.run 12 {} source with
  | none =>
    rw [hs] at hrun
    cases hrun
  | some x =>
    rw [hs] at hrun
    exact ⟨x.1, x.2, rfl, of_decide_eq_true hrun⟩

variable {m : Machine} {p : Cell}

theorem Left.mem_far (h : Left m) (hp : Cell.Reached m.heap.Links [.closure ⟨0⟩] p) : p ∈ far :=
  hp.mem (by decide) (by decide) fun p hp q hl => h.1 p hp q hl.mem_cells

theorem Left.mem_near (h : Left m) (hp : Cell.Reached m.heap.FieldLinks [.closure ⟨0⟩] p) : p ∈ near := by
  obtain ⟨-, hlinks, hfields, -⟩ := h
  refine hp.mem (by decide) (by decide) fun p hp q ⟨hl, hfield⟩ => ?_
  rcases List.mem_cons.mp hp with rfl | hp
  · obtain ⟨i, hi, hcells⟩ := Option.map_eq_some_iff.mp hfields
    have hq := (hfield ⟨0⟩ i rfl hi).mem_cells
    rw [hcells] at hq
    cases hq
  · exact hlinks p hp q hl.mem_cells

end Leaked

/-- If an instance did not lead to its class, a call could change what it cannot reach: the frame of the block, where the
method is found that the call runs. -/
theorem method_called_before_it_is_copied : ∃ diagnostics s, Session.run 12 {} Leaked.source = some (diagnostics, s) ∧
    (s.machine.heap.getOwn? globalFrame "h").map Value.cells = some [.function ⟨0⟩] ∧
    s.machine.heap.Has (.frame ⟨1⟩) ∧ ¬Cell.Reached s.machine.heap.FieldLinks [.closure ⟨0⟩] (.frame ⟨1⟩) ∧
    (perform 8 (.invoke (.closure ⟨0⟩) [] 1) s.machine).machine.heap.frame? ⟨1⟩ ≠ s.machine.heap.frame? ⟨1⟩ := by
  obtain ⟨diagnostics, s, hrun, hleft⟩ := Leaked.run_source
  obtain ⟨hcallee, hbefore, hafter, -⟩ := hleft.2.2.2
  refine ⟨diagnostics, s, hrun, hcallee, ?_, fun hp => absurd (hleft.mem_near hp) (by decide), fun heq => ?_⟩
  · obtain ⟨value, hvalue, -⟩ := Option.map_eq_some_iff.mp hbefore
    obtain ⟨f, hf, -⟩ := Option.bind_eq_some_iff.mp hvalue
    exact (Array.getElem?_eq_some_iff.mp hf).1
  · have hsame : (perform 8 Leaked.call s.machine).machine.heap.getOwn? ⟨1⟩ "x" = s.machine.heap.getOwn? ⟨1⟩ "x" :=
      congrArg (·.bind fun f => f.bindings.get? "x") heq
    rw [hsame, hbefore] at hafter
    cases hafter

/-- The frame that binds the receiver of the initializer is out of reach for the call, which leaves it alone. -/
theorem receiver_of_initializer_is_left_alone : ∃ diagnostics s f,
    Session.run 12 {} Leaked.source = some (diagnostics, s) ∧ s.machine.heap.frame? ⟨2⟩ = some f ∧
    (f.bindings.get? "this").map Value.cells = some [.object ⟨0⟩] ∧
    ¬Cell.Reached s.machine.heap.Links [.closure ⟨0⟩] (.frame ⟨2⟩) ∧
    (perform 8 (.invoke (.closure ⟨0⟩) [] 1) s.machine).machine.heap.frame? ⟨2⟩ = some f := by
  obtain ⟨diagnostics, s, hrun, hleft⟩ := Leaked.run_source
  obtain ⟨-, -, hthis⟩ := hleft.2.2.2.2
  obtain ⟨value, hvalue, hcells⟩ := Option.map_eq_some_iff.mp hthis
  obtain ⟨f, hf, hget⟩ := Option.bind_eq_some_iff.mp hvalue
  have hunreached : ¬Cell.Reached s.machine.heap.Links [.closure ⟨0⟩] (.frame ⟨2⟩) := fun hp =>
    absurd (hleft.mem_far hp) (by decide)
  have hcall := ((unreached_cells_are_left_alone 8 s.machine).1 (.closure ⟨0⟩) [] 1 _ rfl).1 ⟨2⟩ f hf hunreached
  exact ⟨diagnostics, s, f, hrun, hf, by rw [hget, Option.map_some, hcells], hunreached, hcall⟩

end Treewalk
