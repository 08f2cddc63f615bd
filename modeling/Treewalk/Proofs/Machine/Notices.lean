import Treewalk.Proofs.Machine.Gauges

/-!
Notices of libraries that do not exist. A run only adds to them, and what it adds are the notices of the activities that
ask for such a library: at each place of the list one, and each of them at one place.
-/

namespace Treewalk

/-- The second machine has the notices of the first one before all others. -/
def Notes (m m' : Machine) : Prop := m.notices <+: m'.notices

instance : Ambient Notes where
  refl m := List.prefix_refl m.notices
  trans h h' := List.IsPrefix.trans h h'
  moves h := by
    cases h with
    | notice _ => exact List.prefix_append _ _
    | _ => exact List.prefix_refl _
  aside m _ _ _ _ := List.prefix_refl m.notices

instance : Ambient fun m m' => m.notices.length ≤ m'.notices.length where
  refl _ := Nat.le_refl _
  trans h h' := Nat.le_trans h h'
  moves h := (Ambient.moves (R := Notes) h).length_le
  aside _ _ _ _ _ := Nat.le_refl _

namespace Activity

/-- The notice that the activity adds by itself: it asks for a library that does not exist. -/
def notice? (a : Activity) : Option MissingLibrary :=
  match a.steps, a.task with
  | _ + 1, .execute (.useLibrary _ path) =>
    let p := LibraryPath.ofText path.lexeme
    match Library.lookup? p.namespaceText p.leaf with
    | some _ => none
    | none => some ⟨path.lexeme, path.line⟩
  | _, _ => none

variable {a b : Activity}

theorem notice?_eq_some {x : MissingLibrary} (h : a.notice? = some x) :
    ∃ keyword path, a.task = .execute (.useLibrary keyword path) ∧
      a.outcome.machine.notices = a.machine.notices ++ [x] := by
  obtain ⟨steps, task, m⟩ := a
  simp only [notice?] at h
  split at h
  · next steps' keyword path =>
    refine ⟨keyword, path, rfl, ?_⟩
    split at h
    · cases h
    · next hnone =>
      cases h
      show (Run.useLibrary path m).machine.notices = _
      simp only [Run.useLibrary, Run.change, hnone]
      rfl
  · cases h

theorem AsksFor.notice?_eq_none (h : a.AsksFor b) : a.notice? = none := by
  obtain ⟨steps, task, m⟩ := a
  obtain ⟨steps', t, n⟩ := b
  cases hx : notice? ⟨steps, task, m⟩ with
  | none => rfl
  | some x =>
    obtain ⟨keyword, path, rfl, -⟩ := notice?_eq_some hx
    rcases h.hands Notes with ⟨hpart, -⟩
    cases hpart with
    | expression he => cases he
    | branch hs => cases hs

end Activity

/-- Notices are added by the activities that have one to add. -/
theorem notices_gauge : Gauge (·.notices.length) fun a => a.notice? ≠ none where
  moves := by
    rintro ⟨steps, task, m⟩ hsteps hnone n n' h
    obtain ⟨steps, rfl⟩ := Nat.exists_eq_succ_of_ne_zero hsteps
    cases h with
    | notice hlookup => exact absurd (by simp [Activity.notice?, hlookup]) hnone
    | _ => rfl
  silent _ _ hsome hasks := hsome hasks.notice?_eq_none

namespace Machine

variable {steps : Nat} {program : List Stmt} {m : Machine} {a : Activity} {stack : List Activity} {k : Nat}
  {x : MissingLibrary}

/-- The stack is under way, and its newest activity adds the notice behind as many others as given. -/
def Raises (m : Machine) (steps : Nat) (program : List Stmt) (x : MissingLibrary) (k : Nat) (stack : List Activity) :
    Prop :=
  m.Underway steps program stack ∧
    ∃ a outer, stack = a :: outer ∧ a.notice? = some x ∧ a.machine.notices.length = k

/-- What an activity adds stands at its place in the notices of the program. -/
theorem Raises.getElem? (h : m.Raises steps program x k stack) :
    (m.interpret steps program).2.notices[k]? = some x := by
  obtain ⟨hunder, a, outer, rfl, hx, rfl⟩ := h
  obtain ⟨-, -, -, hnotices⟩ := Activity.notice?_eq_some hx
  obtain ⟨more, hmore⟩ := hunder.ends (R := Notes)
  rw [← hmore, hnotices]
  simp

/-- An activity that adds a notice passes one number of notices. -/
theorem passes_of_notice? (hx : a.notice? = some x) :
    a.Passes (·.notices.length) k ↔ a.machine.notices.length = k := by
  obtain ⟨-, -, -, hnotices⟩ := Activity.notice?_eq_some hx
  rw [Activity.Passes, hnotices, List.length_append, List.length_singleton]
  omega

/-- At each place one activity adds its notice. -/
theorem Raises.unique {y : MissingLibrary} {other : List Activity} (h : m.Raises steps program x k stack)
    (h' : m.Raises steps program y k other) : other = stack := by
  obtain ⟨hunder, a, outer, rfl, hx, hk⟩ := h
  obtain ⟨hunder', b, below, rfl, hy, hk'⟩ := h'
  exact notices_gauge.unique hunder' hunder (by simp [hy]) (by simp [hx]) ((passes_of_notice? hy).mpr hk')
    ((passes_of_notice? hx).mpr hk)

/-- Each notice that a program adds is one that an activity of it adds there. -/
theorem notices_getElem?_iff (hk : m.notices.length ≤ k) :
    (m.interpret steps program).2.notices[k]? = some x ↔ ∃ stack, m.Raises steps program x k stack := by
  constructor
  · intro hx
    obtain ⟨hlt, -⟩ := List.getElem?_eq_some_iff.mp hx
    obtain ⟨a, outer, ha, hak⟩ := exists_passes (·.notices.length) hk hlt
    obtain ⟨b, below, hb, hsome, hbk⟩ := notices_gauge.exists_source ha hak
    obtain ⟨y, hy⟩ := Option.ne_none_iff_exists'.mp hsome
    have hraises : m.Raises steps program y k (b :: below) := ⟨hb, b, below, rfl, hy, (passes_of_notice? hy).mp hbk⟩
    cases hx.symm.trans hraises.getElem?
    exact ⟨b :: below, hraises⟩
  · rintro ⟨stack, h⟩
    exact h.getElem?

end Machine

end Treewalk
