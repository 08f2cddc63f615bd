import Treewalk.Heap.Class

/-!
Heaps only grow: frames stay where they are, within the same frames, and what they bind they go on binding. Lookups in
frames are given for each change of a heap.
-/

namespace Treewalk

namespace Table

variable {α : Type}

variable {name : String} {value : α} {entries : List (String × α)} {t : Table α}

theorem mem_of_lookup (h : lookup name entries = some value) : (name, value) ∈ entries := by
  induction entries with
  | nil => cases h
  | cons entry rest ih =>
    unfold lookup at h
    split at h
    · next hkey =>
      cases h
      subst hkey
      exact List.mem_cons_self
    · exact List.mem_cons_of_mem _ (ih h)

theorem mem_of_get? (h : t.get? name = some value) : (name, value) ∈ t.entries := mem_of_lookup h

theorem mem_insert {entry : String × α} (h : entry ∈ insert name value entries) :
    entry = (name, value) ∨ entry ∈ entries := by
  induction entries with
  | nil => exact Or.inl (List.mem_singleton.mp h)
  | cons first rest ih =>
    unfold insert at h
    split at h
    · rcases List.mem_cons.mp h with h | h
      · exact Or.inl h
      · exact Or.inr (List.mem_cons_of_mem _ h)
    · rcases List.mem_cons.mp h with h | h
      · exact Or.inr (h ▸ List.mem_cons_self)
      · exact (ih h).imp_right (List.mem_cons_of_mem _)

theorem mem_putAll {entry : String × α} (h : entry ∈ (t.putAll entries).entries) :
    entry ∈ entries ∨ entry ∈ t.entries := by
  induction entries generalizing t with
  | nil => exact Or.inr h
  | cons first rest ih =>
    rcases ih (t := t.put first.1 first.2) h with h | h
    · exact Or.inl (List.mem_cons_of_mem _ h)
    · rcases mem_insert h with h | h
      · exact Or.inl (h ▸ List.mem_cons_self)
      · exact Or.inr h

theorem isSome_get?_put {name key : String} (h : (t.get? key).isSome) : ((t.put name value).get? key).isSome := by
  rw [get?_put]
  split
  · rfl
  · exact h

/-- A table binds all names that were put into it. -/
theorem isSome_get?_putAll {key : String} (h : key ∈ entries.map (·.1) ∨ (t.get? key).isSome) :
    ((t.putAll entries).get? key).isSome := by
  induction entries generalizing t with
  | nil => exact h.resolve_left (by simp)
  | cons entry rest ih =>
    refine ih ?_
    rcases h with h | h
    · rcases List.mem_cons.mp h with rfl | h
      · exact Or.inr (by simp)
      · exact Or.inl h
    · exact Or.inr (isSome_get?_put h)

theorem get?_putAll_of_notMem (h : name ∉ entries.map (·.1)) : (t.putAll entries).get? name = t.get? name := by
  induction entries generalizing t with
  | nil => rfl
  | cons entry rest ih =>
    rw [List.map_cons, List.mem_cons, not_or] at h
    exact (ih h.2).trans ((get?_put ..).trans (if_neg fun heq => h.1 heq.symm))

/-- Of entries with different names, each is in the table. -/
theorem get?_putAll (hd : (entries.map (·.1)).Nodup) (h : (name, value) ∈ entries) :
    (t.putAll entries).get? name = some value := by
  induction entries generalizing t with
  | nil => cases h
  | cons entry rest ih =>
    rw [List.map_cons, List.nodup_cons] at hd
    rcases List.mem_cons.mp h with rfl | h
    · exact (get?_putAll_of_notMem hd.1).trans ((get?_put ..).trans (if_pos rfl))
    · exact ih hd.2 h

end Table

namespace Heap

/-! ### Lookups behind changes -/

theorem frame?_define (h : Heap) (id : FrameId) (name : String) (value : Value) (key : FrameId) :
    (h.define id name value).frame? key =
      (h.frame? key).map fun f => if id = key then { f with bindings := f.bindings.put name value } else f := by
  have hindex : (id.index = key.index) ↔ id = key := by cases id; cases key; simp
  simp only [frame?, define, Array.getElem?_modify, hindex]
  split
  · rfl
  · simp

theorem frame?_addFrame (h : Heap) (frame : Frame) (key : FrameId) :
    (h.addFrame frame).2.frame? key = if key = (h.addFrame frame).1 then some frame else h.frame? key := by
  have hindex : key = ⟨h.frames.size⟩ ↔ key.index = h.frames.size := by cases key; simp
  simp only [frame?, addFrame, Array.getElem?_push, hindex]

theorem frame?_addFrame_self (h : Heap) (frame : Frame) :
    (h.addFrame frame).2.frame? (h.addFrame frame).1 = some frame := by
  rw [frame?_addFrame, if_pos rfl]

theorem getOwn?_define_self {h : Heap} {id : FrameId} {f : Frame} (hf : h.frame? id = some f) (name : String)
    (value : Value) : (h.define id name value).getOwn? id name = some value := by
  simp [getOwn?, frame?_define, hf]

/-- Binding a name anew creates no binding. -/
theorem isSome_getOwn?_define {h : Heap} {id : FrameId} {name : String} (hb : (h.getOwn? id name).isSome)
    (value : Value) (key : FrameId) (x : String) :
    ((h.define id name value).getOwn? key x).isSome = (h.getOwn? key x).isSome := by
  rw [getOwn?, getOwn?, frame?_define]
  cases hf : h.frame? key with
  | none => rfl
  | some f =>
    simp only [Option.map_some, Option.bind_some]
    split
    · next heq =>
      subst heq
      rw [getOwn?, hf, Option.bind_some] at hb
      rw [Table.get?_put]
      split
      · next heq =>
        subst heq
        exact hb.symm
      · rfl
    · rfl

theorem exists_frame_of_parent? {h : Heap} {id parent : FrameId} (hp : h.parent? id = some parent) :
    ∃ f, h.frame? id = some f ∧ f.enclosing = some parent := by
  obtain ⟨f, hf, he⟩ := Option.bind_eq_some_iff.mp hp
  exact ⟨f, hf, he⟩

/-! ### Growth -/

/-- Each frame of the first heap stands in the second one, within the same frame, and binds at least the same names. -/
def Grows (h h' : Heap) : Prop :=
  ∀ id f, h.frame? id = some f → ∃ f', h'.frame? id = some f' ∧ f'.enclosing = f.enclosing ∧
    ∀ name, (f.bindings.get? name).isSome → (f'.bindings.get? name).isSome

namespace Grows

variable {h h' h'' : Heap}

theorem refl (h : Heap) : Grows h h := fun _ f hf => ⟨f, hf, rfl, fun _ => id⟩

theorem trans (a : Grows h h') (b : Grows h' h'') : Grows h h'' := fun id f hf => by
  obtain ⟨f', hf', he, hb⟩ := a id f hf
  obtain ⟨f'', hf'', he', hb'⟩ := b id f' hf'
  exact ⟨f'', hf'', he'.trans he, fun name hn => hb' name (hb name hn)⟩

theorem of_frames (hframes : h'.frames = h.frames) : Grows h h' := fun key f hf =>
  ⟨f, by rw [frame?, hframes]; exact hf, rfl, fun _ => id⟩

theorem define (h : Heap) (id : FrameId) (name : String) (value : Value) : Grows h (h.define id name value) :=
  fun key f hf => by
    rw [frame?_define, hf]
    refine ⟨_, rfl, ?_, fun x hx => ?_⟩
    · split <;> rfl
    · split
      · exact Table.isSome_get?_put hx
      · exact hx

theorem addFrame (h : Heap) (frame : Frame) : Grows h (h.addFrame frame).2 := fun key f hf => by
  refine ⟨f, ?_, rfl, fun _ => id⟩
  rw [frame?_addFrame, if_neg ?_]
  · exact hf
  · rintro rfl
    simp [frame?, Heap.addFrame] at hf

theorem parent? (a : Grows h h') {id parent : FrameId} (hp : h.parent? id = some parent) :
    h'.parent? id = some parent := by
  obtain ⟨f, hf, he⟩ := exists_frame_of_parent? hp
  obtain ⟨f', hf', he', -⟩ := a id f hf
  simp [Heap.parent?, hf', he', he]

theorem getOwn? (a : Grows h h') {id : FrameId} {name : String} (hn : (h.getOwn? id name).isSome) :
    (h'.getOwn? id name).isSome := by
  obtain ⟨value, hv⟩ := Option.isSome_iff_exists.mp hn
  obtain ⟨f, hf, hget⟩ := Option.bind_eq_some_iff.mp hv
  obtain ⟨f', hf', -, hb⟩ := a id f hf
  simpa [Heap.getOwn?, hf'] using hb name (by simp [hget])

end Grows

/-! ### Classes -/

theorem ancestryUpTo_congr {h h' : Heap} (hc : h'.classes = h.classes) (count : Nat) (id : ClassId) :
    h'.ancestryUpTo count id = h.ancestryUpTo count id := by
  induction count generalizing id with
  | zero => rfl
  | succ count ih =>
    have hclass : h'.class? id = h.class? id := by rw [class?, hc, class?]
    simp only [ancestryUpTo, hclass, ih]

/-- Methods are found by the classes of a heap alone. -/
theorem findMethod?_congr {h h' : Heap} (hc : h'.classes = h.classes) (id : ClassId) (name : String) :
    h'.findMethod? id name = h.findMethod? id name := by
  rw [findMethod?, ancestry, hc, ancestryUpTo_congr hc]
  rfl

end Heap

end Treewalk
