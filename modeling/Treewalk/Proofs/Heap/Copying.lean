import Mathlib.Data.List.Induction
import Mathlib.Data.List.Nodup
import Treewalk.Proofs.Heap.Growth

/-!
Methods that are copied into the fields of an instance. They are copied from the topmost class downwards, so that what a
field holds in the end is the method that is found from the class upwards, bound to the instance in a frame of its own.
-/

namespace Treewalk

namespace Table

variable {α : Type} {name : String} {value : α}

theorem lookup_append (name : String) (first rest : List (String × α)) :
    lookup name (first ++ rest) = (lookup name first).or (lookup name rest) := by
  induction first with
  | nil => rfl
  | cons entry first ih =>
    simp only [List.cons_append, lookup]
    split
    · rfl
    · exact ih

theorem lookup_eq_some_iff {entries : List (String × α)} (hd : (entries.map (·.1)).Nodup) :
    lookup name entries = some value ↔ (name, value) ∈ entries := by
  refine ⟨mem_of_lookup, fun hmem => ?_⟩
  induction entries with
  | nil => cases hmem
  | cons entry rest ih =>
    obtain ⟨hentry, hrest⟩ := List.nodup_cons.mp hd
    rcases List.mem_cons.mp hmem with rfl | hmem
    · exact if_pos rfl
    · have hne : entry.1 ≠ name := fun heq => hentry (List.mem_map.mpr ⟨_, hmem, heq.symm⟩)
      exact (if_neg hne).trans (ih hrest hmem)

/-- If no name occurs twice, the order does not matter. -/
theorem lookup_perm {entries entries' : List (String × α)} (h : entries.Perm entries')
    (hd : (entries.map (·.1)).Nodup) (name : String) : lookup name entries = lookup name entries' := by
  have hd' : (entries'.map (·.1)).Nodup := (h.map _).nodup_iff.mp hd
  ext value
  rw [lookup_eq_some_iff hd, lookup_eq_some_iff hd', h.mem_iff]

/-- No name occurs twice. -/
def Distinct (t : Table α) : Prop := (t.entries.map (·.1)).Nodup

theorem Distinct.put {t : Table α} (h : t.Distinct) (name : String) (value : α) : (t.put name value).Distinct := by
  obtain ⟨entries⟩ := t
  show ((insert name value entries).map (·.1)).Nodup
  induction entries with
  | nil => exact List.nodup_singleton name
  | cons entry rest ih =>
    obtain ⟨hentry, hrest⟩ := List.nodup_cons.mp h
    unfold insert
    split
    · next heq => exact List.nodup_cons.mpr ⟨heq ▸ hentry, hrest⟩
    · next hne =>
      refine List.nodup_cons.mpr ⟨fun hmem => ?_, ih hrest⟩
      obtain ⟨entry', hmem', heq⟩ := List.mem_map.mp hmem
      rcases mem_insert hmem' with rfl | hmem'
      · exact hne heq.symm
      · exact hentry (heq ▸ List.mem_map_of_mem hmem')

theorem Distinct.putAll {t : Table α} (h : t.Distinct) (entries : List (String × α)) :
    (t.putAll entries).Distinct := by
  induction entries generalizing t with
  | nil => exact h
  | cons entry rest ih => exact ih (h.put entry.1 entry.2)

/-- A table in the order of its names, or in the reversed one, is the same table. -/
theorem Distinct.lookup_sorted {t : Table α} (h : t.Distinct) (name : String) :
    lookup name t.sorted.reverse = t.get? name := by
  have hperm : t.entries.Perm t.sorted.reverse := (sortBy_perm _ _).symm.trans (List.reverse_perm _).symm
  exact (lookup_perm hperm h name).symm

end Table

namespace Heap

/-! ### Single changes -/

theorem closure?_addClosure (h : Heap) (f : Closure) (key : ClosureId) :
    (h.addClosure f).2.closure? key = if key = (h.addClosure f).1 then some f else h.closure? key := by
  have hindex : key = ⟨h.closures.size⟩ ↔ key.index = h.closures.size := by cases key; simp
  simp only [closure?, addClosure, Array.getElem?_push, hindex]

theorem instance?_setField (h : Heap) (id : InstanceId) (name : String) (value : Value) (key : InstanceId) :
    (h.setField id name value).instance? key =
      (h.instance? key).map fun i => if id = key then { i with fields := i.fields.put name value } else i := by
  have hindex : (id.index = key.index) ↔ id = key := by cases id; cases key; simp
  simp only [instance?, setField, Array.getElem?_modify, hindex]
  split
  · rfl
  · simp

/-- What a field of an instance holds. -/
def field? (h : Heap) (id : InstanceId) (name : String) : Option Value :=
  (h.instance? id).bind (·.fields.get? name)

theorem field?_setField {h : Heap} {id : InstanceId} {i : Instance} (hi : h.instance? id = some i)
    (name : String) (value : Value) (key : String) :
    (h.setField id name value).field? id key = if name = key then some value else h.field? id key := by
  simp only [field?, instance?_setField, hi, Option.map_some, Option.bind_some, if_pos, Table.get?_put]

theorem property?_eq_field_iff {h : Heap} {id : InstanceId} {name : String} {value : Value} :
    h.property? id name = some (.field value) ↔ h.field? id name = some value := by
  unfold property? field?
  cases h.instance? id with
  | none => simp
  | some i =>
    simp only [Option.bind_some]
    cases i.fields.get? name <;> simp

/-- The frame of a method that is bound to a receiver. -/
def receiverFrame (method : Closure) (receiver : InstanceId) : Frame :=
  { bindings := ⟨[(receiverName, .object receiver)]⟩, enclosing := some method.frame }

section
variable (h : Heap) (id : InstanceId) (entry : String × Closure)

theorem frame?_copyMethod (key : FrameId) : (h.copyMethod id entry).frame? key =
    if key = ⟨h.frames.size⟩ then some (receiverFrame entry.2 id) else h.frame? key :=
  frame?_addFrame h (receiverFrame entry.2 id) key

theorem closure?_copyMethod (key : ClosureId) : (h.copyMethod id entry).closure? key =
    if key = ⟨h.closures.size⟩ then some { entry.2 with frame := ⟨h.frames.size⟩ } else h.closure? key :=
  closure?_addClosure (h.addFrame (receiverFrame entry.2 id)).2 _ key

theorem instance?_copyMethod (key : InstanceId) : (h.copyMethod id entry).instance? key =
    (h.instance? key).map fun i =>
      if id = key then { i with fields := i.fields.put entry.1 (.closure ⟨h.closures.size⟩) } else i :=
  instance?_setField (h.bindValue entry.2 id).2 id entry.1 _ key

theorem field?_copyMethod {i : Instance} (hi : h.instance? id = some i) (key : String) :
    (h.copyMethod id entry).field? id key =
      if entry.1 = key then some (.closure ⟨h.closures.size⟩) else h.field? id key :=
  field?_setField (h := (h.bindValue entry.2 id).2) hi entry.1 _ key

end

/-! ### Copies -/

/-- The property of the instance is the method, bound to the instance in the frame, which the first heap did not have. -/
def Holds (h₀ h : Heap) (id : InstanceId) (name : String) (method : Closure) (frame : FrameId) : Prop :=
  ∃ place, h.property? id name = some (.field (.closure place)) ∧ h.closure? place = some { method with frame } ∧
    h.frame? frame = some (receiverFrame method id) ∧ h₀.frame? frame = none

/-- The second heap is the first one with methods copied into fields of the instance, each bound in a frame of its own;
the other fields are as they were. -/
structure Copied (h₀ h : Heap) (id : InstanceId) (method? : String → Option Closure) : Prop where
  classes : h.classes = h₀.classes
  frames : h₀.frames.size ≤ h.frames.size
  instances : ∀ i, h₀.instance? id = some i → ∃ i', h.instance? id = some i' ∧ i'.classId = i.classId
  methods : ∃ frame : String → FrameId,
    (∀ name method, method? name = some method → Holds h₀ h id name method (frame name)) ∧
    ∀ name name', (method? name).isSome → (method? name').isSome → frame name = frame name' → name = name'
  others : ∀ name, method? name = none → h.field? id name = h₀.field? id name

variable {h₀ h : Heap} {id : InstanceId} {i : Instance} {method? : String → Option Closure}

theorem frame?_next : h.frame? ⟨h.frames.size⟩ = none := Array.getElem?_eq_none (Nat.le_refl _)

theorem Holds.copyMethod {name : String} {method : Closure} {frame : FrameId} {entry : String × Closure}
    (a : Holds h₀ h id name method frame) (hi : h.instance? id = some i) (hne : entry.1 ≠ name) :
    Holds h₀ (h.copyMethod id entry) id name method frame := by
  obtain ⟨place, hproperty, hclosure, hframe, hfresh⟩ := a
  have hplace : place ≠ ⟨h.closures.size⟩ := by
    rintro rfl
    rw [closure?, Array.getElem?_eq_none (Nat.le_refl _)] at hclosure
    cases hclosure
  have hne' : frame ≠ ⟨h.frames.size⟩ := by
    rintro rfl
    rw [frame?_next] at hframe
    cases hframe
  refine ⟨place, ?_, ?_, ?_, hfresh⟩
  · rw [property?_eq_field_iff] at hproperty ⊢
    rw [field?_copyMethod h id entry hi, if_neg hne, hproperty]
  · rw [closure?_copyMethod, if_neg hplace, hclosure]
  · rw [frame?_copyMethod, if_neg hne', hframe]

theorem holds_copyMethod (entry : String × Closure) (hi : h.instance? id = some i)
    (hframes : h₀.frames.size ≤ h.frames.size) :
    Holds h₀ (h.copyMethod id entry) id entry.1 entry.2 ⟨h.frames.size⟩ := by
  refine ⟨⟨h.closures.size⟩, ?_, ?_, ?_, Array.getElem?_eq_none hframes⟩
  · rw [property?_eq_field_iff, field?_copyMethod h id entry hi, if_pos rfl]
  · rw [closure?_copyMethod, if_pos rfl]
  · rw [frame?_copyMethod, if_pos rfl]

namespace Copied

theorem refl (h : Heap) (id : InstanceId) : Copied h h id fun _ => none :=
  ⟨rfl, Nat.le_refl _, fun i hi => ⟨i, hi, rfl⟩, ⟨fun _ => ⟨0⟩, nofun, nofun⟩, fun _ _ => rfl⟩

/-- One more copy takes the place of what the field held. -/
theorem copyMethod (a : Copied h₀ h id method?) (hi : h₀.instance? id = some i) (entry : String × Closure) :
    Copied h₀ (h.copyMethod id entry) id (Function.update method? entry.1 (some entry.2)) := by
  obtain ⟨i', hi', hclass⟩ := a.instances i hi
  obtain ⟨frame, hmethods, hdistinct⟩ := a.methods
  -- The frame of the new copy is behind all frames in which earlier copies were bound.
  have hold : ∀ name, (method? name).isSome → frame name ≠ ⟨h.frames.size⟩ := by
    intro name hname heq
    obtain ⟨method, hmethod⟩ := Option.isSome_iff_exists.mp hname
    obtain ⟨-, -, -, hframe, -⟩ := hmethods name method hmethod
    rw [heq, frame?_next] at hframe
    cases hframe
  have hsize : (h.copyMethod id entry).frames.size = h.frames.size + 1 := Array.size_push _
  refine ⟨a.classes, Nat.le_trans a.frames (hsize ▸ Nat.le_succ _), fun j hj => ?_,
    ⟨Function.update frame entry.1 ⟨h.frames.size⟩, fun name method hmethod => ?_, fun name name' hname hname' heq => ?_⟩,
    fun name hname => ?_⟩
  · cases hi.symm.trans hj
    rw [instance?_copyMethod, hi', Option.map_some, if_pos rfl]
    exact ⟨_, rfl, hclass⟩
  · by_cases hentry : name = entry.1
    · subst hentry
      rw [Function.update_self] at hmethod ⊢
      cases hmethod
      exact holds_copyMethod entry hi' a.frames
    · rw [Function.update_of_ne hentry] at hmethod ⊢
      exact (hmethods name method hmethod).copyMethod hi' (Ne.symm hentry)
  · by_cases hentry : name = entry.1
    · by_cases hentry' : name' = entry.1
      · exact hentry.trans hentry'.symm
      · subst hentry
        rw [Function.update_of_ne hentry'] at hname' heq
        rw [Function.update_self] at heq
        exact absurd heq.symm (hold name' hname')
    · rw [Function.update_of_ne hentry] at hname heq
      by_cases hentry' : name' = entry.1
      · subst hentry'
        rw [Function.update_self] at heq
        exact absurd heq (hold name hname)
      · rw [Function.update_of_ne hentry'] at hname' heq
        exact hdistinct name name' hname hname' heq
  · by_cases hentry : name = entry.1
    · subst hentry
      rw [Function.update_self] at hname
      cases hname
    · rw [Function.update_of_ne hentry] at hname
      rw [field?_copyMethod h id entry hi', if_neg (Ne.symm hentry), a.others name hname]

/-- Of several copies with one name the last one stays. -/
theorem foldl (hi : h.instance? id = some i) (entries : List (String × Closure)) :
    Copied h (entries.foldl (fun h entry => h.copyMethod id entry) h) id fun name => Table.lookup name entries.reverse := by
  induction entries using List.reverseRecOn with
  | nil => exact refl h id
  | append_singleton entries entry ih =>
    have hlookup : (fun name => Table.lookup name (entries ++ [entry]).reverse) =
        Function.update (fun name => Table.lookup name entries.reverse) entry.1 (some entry.2) := by
      funext name
      rw [List.reverse_append, List.reverse_singleton, List.singleton_append, Table.lookup, Function.update_apply]
      simp only [eq_comm]
    rw [List.foldl_append, hlookup]
    exact ih.copyMethod hi entry

end Copied

/-! ### Lineages -/

/-- No class has two methods with one name. -/
def Tidy (h : Heap) : Prop := ∀ id c, h.class? id = some c → c.methods.Distinct

/-- All that is copied into the fields of an instance, in its order. -/
def copies (h : Heap) (classId : ClassId) : List (String × Closure) :=
  (h.lineage classId).flatMap (·.methods.sorted)

theorem copyLineage_eq (h : Heap) (id : InstanceId) (classId : ClassId) :
    h.copyLineage id classId = (h.copies classId).foldl (fun h entry => h.copyMethod id entry) h :=
  List.foldl_flatMap.symm

theorem Tidy.ancestryUpTo (ht : h.Tidy) (count : Nat) (classId : ClassId) :
    ∀ c ∈ h.ancestryUpTo count classId, c.methods.Distinct := by
  induction count generalizing classId with
  | zero => nofun
  | succ count ih =>
    intro c hc
    unfold Heap.ancestryUpTo at hc
    split at hc
    · cases hc
    · next own hown =>
      rcases List.mem_cons.mp hc with rfl | hc
      · exact ht classId c hown
      · split at hc
        · cases hc
        · exact ih _ c hc

/-- The last copy under a name is the method that is found from the class upwards. -/
theorem Tidy.lookup_copies (ht : h.Tidy) (classId : ClassId) (name : String) :
    Table.lookup name (h.copies classId).reverse = h.findMethod? classId name := by
  rw [copies, lineage, List.reverse_flatMap, List.reverse_reverse, findMethod?, ancestry]
  -- Backwards, the copies of the class itself come first, as in the search for a method.
  have hall := ht.ancestryUpTo h.classes.size classId
  generalize h.ancestryUpTo h.classes.size classId = chain at hall
  induction chain with
  | nil => rfl
  | cons c rest ih =>
    rw [List.flatMap_cons, Table.lookup_append, ih fun c hc => hall c (List.mem_cons_of_mem _ hc), List.findSome?_cons]
    show (Table.lookup name c.methods.sorted.reverse).or _ = _
    rw [(hall c List.mem_cons_self).lookup_sorted]
    cases c.methods.get? name <;> rfl

/-- What the fields of an instance hold behind the copying are the methods that are found in its class. -/
theorem Tidy.copied (ht : h.Tidy) (hi : h.instance? id = some i) (classId : ClassId) :
    Copied h (h.copyLineage id classId) id (h.findMethod? classId) := by
  have hcopied := Copied.foldl hi (h.copies classId)
  rw [← copyLineage_eq] at hcopied
  rwa [funext (ht.lookup_copies classId)] at hcopied

end Heap

end Treewalk
