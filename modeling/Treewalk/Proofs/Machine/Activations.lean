import Treewalk.Proofs.Machine.Gauges
import Treewalk.Proofs.Machine.Persistence

/-!
The frames in which a program runs. A block opens a frame of its own, and so does each call of a function, for its
parameters and the names that its body declares. All else runs in the frame that was opened last below it. Since frames
are never given up, a frame that is opened is new, and no other activity opens it.
-/

namespace Treewalk

/-- Frames are only ever added. -/
def Heap.Fills (h h' : Heap) : Prop := h.frames.size ≤ h'.frames.size

instance : Heap.Persistent Heap.Fills where
  refl h := Nat.le_refl h.frames.size
  trans := Nat.le_trans
  define _ _ _ _ := Nat.le_of_eq Array.size_modify.symm
  addFrame _ frame := Nat.le_of_lt (Nat.lt_of_lt_of_eq (Nat.lt_succ_self _) (Array.size_push frame).symm)
  addClosure _ _ := Nat.le_refl _
  addClass _ _ _ _ _ := Nat.le_refl _
  addInstance _ _ := Nat.le_refl _
  setField _ _ _ _ := Nat.le_refl _

/-- How many frames there are. -/
abbrev Machine.frameCount (m : Machine) : Nat := m.heap.frames.size

instance : Stepwise fun m m' => m.frameCount ≤ m'.frameCount := inferInstanceAs (Stepwise (Machine.Keeps Heap.Fills))

namespace Activity

/-- The machine in the frame that the activity opens for the statements in it, if it opens one: that of a block, or that of
the parameters of a function. -/
def inner? (a : Activity) : Option Machine :=
  match a.steps, a.task with
  | _ + 1, .execute (.block _) => some a.machine.inBlock
  | _ + 1, .invoke callee arguments _ =>
    if depthLimit ≤ a.machine.depth then none else (a.machine.entered? callee arguments).map (·.inside arguments)
  | _, _ => none

/-- The frame that the activity opens. -/
def opens? (a : Activity) : Option FrameId := a.inner?.map (·.frame)

variable {a b : Activity} {n : Machine} {frame : FrameId}

/-- Only blocks and calls of functions open frames. -/
theorem inner?_cases (h : a.inner? = some n) :
    (∃ steps body m, a = ⟨steps + 1, .execute (.block body), m⟩ ∧ n = m.inBlock) ∨
      ∃ steps callee arguments line m e, a = ⟨steps + 1, .invoke callee arguments line, m⟩ ∧ ¬depthLimit ≤ m.depth ∧
        m.entered? callee arguments = some e ∧ n = e.inside arguments := by
  obtain ⟨_ | steps, task, m⟩ := a
  · cases h
  cases task with
  | evaluate e => cases h
  | execute s =>
    cases s with
    | block body =>
      cases h
      exact Or.inl ⟨steps, body, m, rfl, rfl⟩
    | _ => cases h
  | invoke callee arguments line =>
    simp only [inner?] at h
    split at h
    · cases h
    · next hd =>
      obtain ⟨e, he, rfl⟩ := Option.map_eq_some_iff.mp h
      exact Or.inr ⟨steps, callee, arguments, line, m, e, rfl, hd, he, rfl⟩

/-- A task that asks for another one in its own frame opens none. -/
theorem inner?_of_part {steps : Nat} {task t : Task} {m : Machine} (h : task.Part t) : inner? ⟨steps, task, m⟩ = none := by
  cases hinner : inner? ⟨steps, task, m⟩ with
  | none => rfl
  | some n =>
    rcases inner?_cases hinner with ⟨_, body, _, heq, -⟩ | ⟨_, _, _, _, _, _, heq, -⟩
    · cases heq
      cases h with
      | expression he => cases he
      | branch hpart => cases hpart
    · cases heq
      cases h

/-- What an activity asks for comes behind the frame that it opens. -/
theorem AsksFor.follows (R : Machine → Machine → Prop) [Durable R] (h : a.AsksFor b) :
    R (a.inner?.getD a.machine) b.machine := by
  have hhands := h.hands R
  obtain ⟨hasks⟩ := h
  rcases hhands with ⟨ht, hn⟩ | ⟨hs, hn⟩ | ⟨he, hd, hs, hn⟩
  · rw [inner?_of_part ht]
    exact hn
  · exact hn
  · simp only [inner?, if_neg hd, he, Option.map_some, Option.getD_some]
    exact hn

/-- The end of an activity comes behind the frame that it opens. -/
theorem outcome_follows (R : Machine → Machine → Prop) [Stepwise R] (h : a.inner? = some n) : R n a.outcome.machine := by
  rcases inner?_cases h with ⟨steps, body, m, rfl, rfl⟩ | ⟨steps, callee, arguments, line, m, e, rfl, hd, he, rfl⟩
  · show R _ (Evaluation.execution (perform steps) steps (.block body) m).machine
    rw [execution_block, Outcome.machine_onMachine]
    have hbody := ((course_body body m.inBlock).durable (perform_durable R steps) nofun).1
    exact Lasting.trans hbody (Stepwise.aside _ _ _)
  · show R _ (Evaluation.invocation (perform steps) callee arguments line m).machine
    rw [invocation_of_entry _ line he, if_neg hd]
    have hbody := ((course_body e.function.routine.body (e.inside arguments)).durable (perform_durable R steps) nofun).1
    exact Lasting.trans hbody (Stepwise.finish e _)

/-- The frame that is opened is the newest one. -/
theorem index_of_inner? (h : a.inner? = some n) :
    a.machine.frameCount ≤ n.frame.index ∧ n.frameCount = n.frame.index + 1 := by
  rcases inner?_cases h with ⟨steps, body, m, rfl, rfl⟩ | ⟨steps, callee, arguments, line, m, e, rfl, hd, he, rfl⟩
  · exact ⟨Nat.le_refl _, Array.size_push _⟩
  · exact ⟨Stepwise.entry (R := fun m m' => m.frameCount ≤ m'.frameCount) he, Array.size_push _⟩

theorem passes_of_opens? (h : a.opens? = some frame) : a.Passes Machine.frameCount frame.index := by
  obtain ⟨n, hn, rfl⟩ := Option.map_eq_some_iff.mp h
  obtain ⟨hbefore, hcount⟩ := index_of_inner? hn
  have hend := outcome_follows (fun m m' => m.frameCount ≤ m'.frameCount) hn
  rw [hcount] at hend
  exact ⟨hbefore, hend⟩

theorem AsksFor.behind_opened (h : a.AsksFor b) (ha : a.opens? = some frame) : frame.index < b.machine.frameCount := by
  obtain ⟨n, hn, rfl⟩ := Option.map_eq_some_iff.mp ha
  have hfollows := h.follows fun m m' => m.frameCount ≤ m'.frameCount
  rw [hn, Option.getD_some, (index_of_inner? hn).2] at hfollows
  exact hfollows

end Activity

namespace Machine.Underway

variable {steps : Nat} {program : List Stmt} {m : Machine} {a b : Activity} {outer below : List Activity}
  {frame : FrameId}

/-- Every activity runs in the frame that was opened last of those below it, or in that of the program. -/
theorem frame_eq (h : m.Underway steps program (a :: outer)) :
    a.machine.frame = (outer.findSome? Activity.opens?).getD m.frame := by
  generalize hstack : a :: outer = stack at h
  induction h generalizing a outer with
  | here =>
    cases hstack
    rfl
  | @later s _ m m₁ _ hnext _ ih =>
    have hsame : m₁.frame = m.frame := machine_of_next? hnext ▸ (perform_durable SameContext steps (.execute s) m).frame
    rw [← hsame]
    exact ih hstack
  | @within _ m a b outer _ hasks ih =>
    cases hstack
    have hframe := (hasks.follows SameContext).frame
    rw [List.findSome?_cons]
    cases hinner : a.inner? with
    | none =>
      rw [hinner] at hframe
      simp only [Activity.opens?, hinner, Option.map_none]
      exact hframe.trans (ih rfl)
    | some n =>
      rw [hinner] at hframe
      simp only [Activity.opens?, hinner, Option.map_some, Option.getD_some]
      exact hframe

/-- No two activities of a program open the same frame. -/
theorem opens?_unique (ha : m.Underway steps program (a :: outer)) (hb : m.Underway steps program (b :: below))
    (hfa : a.opens? = some frame) (hfb : b.opens? = some frame) : a :: outer = b :: below := by
  have hak := Activity.passes_of_opens? hfa
  have hbk := Activity.passes_of_opens? hfb
  -- What stands on an activity began behind the frame that this one opened.
  rcases ha.comparable hb hak hbk with hsuffix | hsuffix
  · rcases hb.suffix_step hsuffix with heq | ⟨c, hc, hcs⟩
    · exact heq
    · exact absurd (hb.passes_of_suffix hcs hbk).1 (Nat.not_le.mpr (hc.behind_opened hfa))
  · rcases ha.suffix_step hsuffix with heq | ⟨c, hc, hcs⟩
    · exact heq.symm
    · exact absurd (ha.passes_of_suffix hcs hak).1 (Nat.not_le.mpr (hc.behind_opened hfb))

/-- A frame that is opened in the course of a program was not there before it, and is there at its end. -/
theorem opens?_new (h : m.Underway steps program (a :: outer)) (hf : a.opens? = some frame) :
    m.frameCount ≤ frame.index ∧ frame.index < (m.interpret steps program).2.frameCount := by
  obtain ⟨hbegins, hends⟩ := Activity.passes_of_opens? hf
  exact ⟨Nat.le_trans (h.begins (R := fun m m' => m.frameCount ≤ m'.frameCount)) hbegins,
    Nat.lt_of_lt_of_le hends (h.ends (R := fun m m' => m.frameCount ≤ m'.frameCount))⟩

end Machine.Underway

end Treewalk
