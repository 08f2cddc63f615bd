import Treewalk.Proofs.Machine.Running

/-!
What a task does, said once. Seen as a function of the way to do tasks, a run is a tree: the machine moves by itself, or
it asks for another task and goes on with the answer. All invariants of runs are read off this tree: what the moves and
the answers keep, the run keeps (`Course.maintain`), and a signal that ends a task that was asked for ends the run, unless
the run catches it (`Course.relay`).
-/

namespace Treewalk

/-- What a run may do: the moves of its own, the tasks that it may ask for, the signals that it may stop with by itself,
and the signals of other tasks on which it ends with a result. -/
structure Conduct where
  moves : Machine → Machine → Prop
  asks : Task → Prop
  stops : Signal → Prop
  catches : Task → Signal → Prop
  uncaught : ∀ task, ¬catches task .suspended

/-- From the given machine on, a run keeps to its conduct. -/
inductive Course (c : Conduct) {α : Type} : Machine → (Performer → Outcome α) → Prop where
  | done {m} (a : α) : Course c m fun _ => .done a m
  | stop {m s} : c.stops s → Course c m fun _ => .stopped s m
  | move {m m' F} : c.moves m m' → Course c m' F → Course c m F
  | ask {m} (task : Task) (next : Outcome task.Result → Performer → Outcome α) : c.asks task →
      (∀ a n, Course c n (next (.done a n))) →
      (∀ s n, c.catches task s → ∃ a, ∀ p, next (.stopped s n) p = .done a n) →
      (∀ s n, ¬c.catches task s → ∀ p, next (.stopped s n) p = .stopped s n) →
      Course c m fun p => next (p task m) p

namespace Outcome

variable {α β : Type}

/-- The machine that is left. -/
def machine : Outcome α → Machine
  | .done _ m => m
  | .stopped _ m => m

/-- The outcome with another machine. -/
def onMachine (g : Machine → Machine) : Outcome α → Outcome α
  | .done a m => .done a (g m)
  | .stopped s m => .stopped s (g m)

/-- A result leaves a machine as the first one says, and a signal as the second one says. -/
def Ends (I : Machine → Prop) (S : Signal → Machine → Prop) : Outcome α → Prop
  | .done _ m => I m
  | .stopped s m => S s m

theorem Ends.machine {I : Machine → Prop} {o : Outcome α} (h : o.Ends I fun _ => I) : I o.machine := by
  cases o <;> exact h

end Outcome

/-! ### Tasks that matter -/

/-- By the answer to the task the outcome can be made to be suspended, with any notices. -/
def Steers {α : Type} (F : Performer → Outcome α) (p : Performer) (task : Task) (m : Machine) : Prop :=
  ∀ notices, ∃ q : Performer, (∀ t n, ¬(t = task ∧ n = m) → q t n = p t n) ∧
    ∃ w, F q = .stopped .suspended w ∧ w.notices = notices

theorem Steers.asks {α : Type} {F : Performer → Outcome α} {p : Performer} {task : Task} {m : Machine}
    (h : Steers F p task m) : Asks F p task m := by
  obtain ⟨q, hq, w, hw, hnotices⟩ := h (⟨"", 0⟩ :: (F p).machine.notices)
  refine ⟨q, hq, fun heq => ?_⟩
  rw [← heq, hw] at hnotices
  exact List.cons_ne_self _ _ hnotices.symm

/-- Whatever is done to an outcome afterwards, the same tasks matter, if suspension and notices stay. -/
theorem Steers.map {α β : Type} {F : Performer → Outcome α} {p : Performer} {task : Task} {m : Machine}
    (h : Steers F p task m) (g : Outcome α → Outcome β)
    (hg : ∀ w, ∃ w', g (.stopped .suspended w) = .stopped .suspended w' ∧ w'.notices = w.notices) :
    Steers (fun p => g (F p)) p task m := by
  intro notices
  obtain ⟨q, hq, w, hw, hnotices⟩ := h notices
  obtain ⟨w', hw', hsame⟩ := hg w
  exact ⟨q, hq, w', by simp only [hw, hw'], hsame.trans hnotices⟩

theorem Asks.of_map {α β : Type} {F : Performer → Outcome α} {p : Performer} {task : Task} {m : Machine}
    {g : Outcome α → β} (h : Asks (fun p => g (F p)) p task m) : Asks F p task m := by
  obtain ⟨q, hq, hne⟩ := h
  exact ⟨q, hq, fun heq => hne (congrArg g heq)⟩

namespace Course

variable {c : Conduct} {α β : Type} {m : Machine} {F : Performer → Outcome α} {p : Performer}

section Asking
variable {task : Task} {next : Outcome task.Result → Performer → Outcome α}
  (huncaught : ∀ s n, ¬c.catches task s → ∀ p, next (.stopped s n) p = .stopped s n)
include huncaught

theorem steers_first (p : Performer) (m : Machine) : Steers (fun p => next (p task m) p) p task m := by
  classical
  intro notices
  let q : Performer := fun t n => if t = task ∧ n = m then .stopped .suspended { m with notices } else p t n
  have hq : q task m = .stopped .suspended { m with notices } := if_pos ⟨rfl, rfl⟩
  refine ⟨q, fun t n hne => if_neg hne, { m with notices }, ?_, rfl⟩
  simp only [hq, huncaught _ _ (c.uncaught task)]

theorem steers_later {t : Task} {n : Machine} (h : Steers (next (p task m)) p t n) :
    Steers (fun p => next (p task m) p) p t n := by
  by_cases heq : task = t ∧ m = n
  · obtain ⟨rfl, rfl⟩ := heq
    exact steers_first huncaught p m
  · intro notices
    obtain ⟨q, hq, w, hw, hnotices⟩ := h notices
    exact ⟨q, hq, w, by simp only [hq task m heq, hw], hnotices⟩

omit huncaught in
theorem asks_later {t : Task} {n : Machine} (h : Asks (fun p => next (p task m) p) p t n)
    (hne : ¬(task = t ∧ m = n)) : Asks (next (p task m)) p t n := by
  obtain ⟨q, hq, hdiffer⟩ := h
  refine ⟨q, hq, fun heq => hdiffer ?_⟩
  simp only [hq task m hne, heq]

end Asking

theorem not_asks_const {o : Outcome α} {t : Task} {n : Machine} : ¬Asks (fun _ => o) p t n := by
  rintro ⟨q, -, hne⟩
  exact hne rfl

/-! ### What a course keeps -/

/-- The run ends within an invariant that its moves and the answers to its tasks keep, and it asks for no task outside
of the invariant. -/
theorem follow {I : Machine → Prop} {S : Signal → Machine → Prop} (h : Course c m F) (p : Performer) (hm : I m)
    (hmove : ∀ n n', c.moves n n' → I n → I n')
    (hask : ∀ t n, c.asks t → I n → Steers F p t n →
      (p t n).Ends I fun s w => (c.catches t s → I w) ∧ (¬c.catches t s → S s w))
    (hstop : ∀ s n, c.stops s → I n → S s n) :
    (F p).Ends I S ∧ ∀ t n, Asks F p t n → c.asks t ∧ I n ∧ Steers F p t n := by
  induction h with
  | done a => exact ⟨hm, fun t n ha => absurd ha not_asks_const⟩
  | stop hs => exact ⟨hstop _ _ hs hm, fun t n ha => absurd ha not_asks_const⟩
  | move hmoves _ ih => exact ih (hmove _ _ hmoves hm) hask
  | @ask m task next htask hdone hcaught huncaught ih =>
    have hfirst := steers_first huncaught p m
    have hanswer := hask task m htask hm hfirst
    -- What is asked for later is asked for in the rest of the course, or it is the first task once more.
    have hasked : ∀ t n, (Asks (next (p task m)) p t n → c.asks t ∧ I n ∧ Steers (next (p task m)) p t n) →
        Asks (fun p => next (p task m) p) p t n → c.asks t ∧ I n ∧ Steers (fun p => next (p task m) p) p t n := by
      intro t n hrest ha
      by_cases heq : task = t ∧ m = n
      · obtain ⟨rfl, rfl⟩ := heq
        exact ⟨htask, hm, hfirst⟩
      · obtain ⟨ht, hn, hs⟩ := hrest (asks_later ha heq)
        exact ⟨ht, hn, steers_later huncaught hs⟩
    cases hp : p task m with
    | done a n =>
      rw [hp] at hanswer hasked
      obtain ⟨hends, hrest⟩ := ih a n hanswer fun t k ht hk hs => hask t k ht hk (steers_later huncaught (hp ▸ hs))
      exact ⟨by simpa only [hp] using hends, fun t k => hasked t k (hrest t k)⟩
    | stopped s n =>
      rw [hp] at hanswer hasked
      by_cases hc : c.catches task s
      · obtain ⟨a, ha⟩ := hcaught s n hc
        refine ⟨by simp only [hp, ha]; exact hanswer.1 hc, fun t k => hasked t k fun hlater => ?_⟩
        rw [funext ha] at hlater
        exact absurd hlater not_asks_const
      · have hend := huncaught s n hc
        refine ⟨by simp only [hp, hend]; exact hanswer.2 hc, fun t k => hasked t k fun hlater => ?_⟩
        rw [funext hend] at hlater
        exact absurd hlater not_asks_const

/-- An invariant of machines that moves and answers keep, however they end, is kept by the run. -/
theorem maintain {I : Machine → Prop} (h : Course c m F) (p : Performer) (hm : I m)
    (hmove : ∀ n n', c.moves n n' → I n → I n')
    (hask : ∀ t n, c.asks t → I n → Steers F p t n → I (p t n).machine) :
    I (F p).machine ∧ ∀ t n, Asks F p t n → c.asks t ∧ I n := by
  obtain ⟨hends, hasked⟩ := h.follow (S := fun _ => I) p hm hmove
    (fun t n ht hn hsteers => by
      have hanswer := hask t n ht hn hsteers
      cases hp : p t n with
      | done a w =>
        rw [hp] at hanswer
        exact hanswer
      | stopped s w =>
        rw [hp] at hanswer
        exact ⟨fun _ => hanswer, fun _ => hanswer⟩)
    fun _ _ _ hn => hn
  refine ⟨hends.machine, fun t n ha => ?_⟩
  obtain ⟨ht, hn, -⟩ := hasked t n ha
  exact ⟨ht, hn⟩

/-- A signal that ends a task that was asked for ends the run on the same machine, as a result if it is caught. -/
theorem relay (h : Course c m F) {t : Task} {n w : Machine} {s : Signal} (ha : Asks F p t n)
    (hp : p t n = .stopped s w) :
    (¬c.catches t s → F p = .stopped s w) ∧ (c.catches t s → ∃ a, F p = .done a w) := by
  induction h with
  | done a => exact absurd ha not_asks_const
  | stop hs => exact absurd ha not_asks_const
  | move _ _ ih => exact ih ha
  | @ask m task next htask hdone hcaught huncaught ih =>
    by_cases heq : task = t ∧ m = n
    · obtain ⟨rfl, rfl⟩ := heq
      simp only [hp]
      refine ⟨fun hc => huncaught s w hc p, fun hc => ?_⟩
      obtain ⟨a, ha⟩ := hcaught s w hc
      exact ⟨a, ha p⟩
    · have hlater := asks_later ha heq
      cases hq : p task m with
      | done a k =>
        rw [hq] at hlater
        simpa only [hq] using ih a k hlater
      | stopped s' k =>
        rw [hq] at hlater
        by_cases hc : c.catches task s'
        · obtain ⟨a, ha⟩ := hcaught s' k hc
          rw [funext ha] at hlater
          exact absurd hlater not_asks_const
        · rw [funext (huncaught s' k hc)] at hlater
          exact absurd hlater not_asks_const

/-- A signal that ends a run is one of its own, or it ended a task that was asked for. -/
theorem origin (h : Course c m F) {s : Signal} {w : Machine} (hF : F p = .stopped s w) :
    c.stops s ∨ ∃ t n, Steers F p t n ∧ ¬c.catches t s ∧ p t n = .stopped s w := by
  have hends := (h.follow (I := fun _ => True)
    (S := fun s w => c.stops s ∨ ∃ t n, Steers F p t n ∧ ¬c.catches t s ∧ p t n = .stopped s w) p trivial
    (fun _ _ _ _ => trivial)
    (fun t n _ _ hsteers => by
      cases hp : p t n with
      | done a w => trivial
      | stopped s w => exact ⟨fun _ => trivial, fun hc => Or.inr ⟨t, n, hsteers, hc, hp⟩⟩)
    fun s n hs _ => Or.inl hs).1
  rw [hF] at hends
  exact hends

/-- All tasks that are asked for have an order: a relation that moves and answers keep leads from the end of one to the
beginning of each later one, and to the end of the run. -/
structure Ordered (R : Machine → Machine → Prop) (F : Performer → Outcome α) (p : Performer) (m : Machine) : Prop where
  ends : R m (F p).machine
  begins : ∀ t n, Asks F p t n → R m n
  answered : ∀ t n, Asks F p t n → R (p t n).machine (F p).machine
  turns : ∀ t n t' n', Asks F p t n → Asks F p t' n' →
    t = t' ∧ n = n' ∨ R (p t n).machine n' ∨ R (p t' n').machine n

theorem ordered_const {R : Machine → Machine → Prop} {o : Outcome α} (ho : R m o.machine) :
    Ordered R (fun _ => o) p m :=
  ⟨ho, fun _ _ h => absurd h not_asks_const, fun _ _ h => absurd h not_asks_const,
    fun _ _ _ _ h => absurd h not_asks_const⟩

theorem ordered {R : Machine → Machine → Prop} [Lasting R] (h : Course c m F) (hmoves : ∀ n n', c.moves n n' → R n n')
    (hp : ∀ t n, R n (p t n).machine) : Ordered R F p m := by
  induction h with
  | done a => exact ordered_const (Lasting.refl _)
  | stop hs => exact ordered_const (Lasting.refl _)
  | move hm _ ih =>
    have hR := hmoves _ _ hm
    exact ⟨Lasting.trans hR ih.ends, fun t n ha => Lasting.trans hR (ih.begins t n ha), ih.answered, ih.turns⟩
  | @ask m task next _ _ hcaught huncaught ih =>
    have hrest : Ordered R (next (p task m)) p (p task m).machine := by
      cases hanswer : p task m with
      | done a n => exact ih a n
      | stopped s n =>
        by_cases hc : c.catches task s
        · obtain ⟨a, ha⟩ := hcaught s n hc
          rw [funext ha]
          exact ordered_const (Lasting.refl _)
        · rw [funext (huncaught s n hc)]
          exact ordered_const (Lasting.refl _)
    -- The first task stands before all that the rest of the course asks for.
    have hfirst : ∀ t n, Asks (fun p => next (p task m) p) p t n → task = t ∧ m = n ∨ Asks (next (p task m)) p t n := by
      intro t n ha
      by_cases heq : task = t ∧ m = n
      · exact Or.inl heq
      · exact Or.inr (asks_later ha heq)
    refine ⟨Lasting.trans (hp task m) hrest.ends, fun t n ha => ?_, fun t n ha => ?_, fun t n t' n' ha ha' => ?_⟩
    · rcases hfirst t n ha with ⟨rfl, rfl⟩ | ha
      · exact Lasting.refl _
      · exact Lasting.trans (hp task m) (hrest.begins t n ha)
    · rcases hfirst t n ha with ⟨rfl, rfl⟩ | ha
      · exact hrest.ends
      · exact hrest.answered t n ha
    · rcases hfirst t n ha with ⟨rfl, rfl⟩ | ha <;> rcases hfirst t' n' ha' with ⟨rfl, rfl⟩ | ha'
      · exact Or.inl ⟨rfl, rfl⟩
      · exact Or.inr (Or.inl (hrest.begins t' n' ha'))
      · exact Or.inr (Or.inr (hrest.begins t n ha))
      · exact hrest.turns t n t' n' ha ha'

/-- What is done to an outcome afterwards, and before the start, does not matter for the order. -/
theorem Ordered.map {β : Type} {R : Machine → Machine → Prop} [Lasting R] {start : Machine} (h : Ordered R F p start)
    (hstart : R m start) {g : Outcome α → Outcome β} (hg : ∀ o, R o.machine (g o).machine) :
    Ordered R (fun p => g (F p)) p m :=
  ⟨Lasting.trans (Lasting.trans hstart h.ends) (hg _),
    fun t n ha => Lasting.trans hstart (h.begins t n ha.of_map),
    fun t n ha => Lasting.trans (h.answered t n ha.of_map) (hg _),
    fun t n t' n' ha ha' => h.turns t n t' n' ha.of_map ha'.of_map⟩

/-- A task that a run asks for takes a count past a bound. -/
def Crosses (F : Performer → Outcome α) (p : Performer) (count : Machine → Nat) (k : Nat) : Prop :=
  ∃ t n, Steers F p t n ∧ count n ≤ k ∧ k < count (p t n).machine

/-- If a count passes a bound in a run, but not in its moves, it does so in a task that was asked for. -/
theorem crosses (h : Course c m F) (count : Machine → Nat) {k : Nat} (hm : count m ≤ k)
    (hmoves : ∀ n n', c.moves n n' → count n' = count n) (hend : k < count (F p).machine) : Crosses F p count k := by
  have hends := (h.maintain (I := fun n => count n ≤ k ∨ Crosses F p count k) p (Or.inl hm)
    (fun n n' hn => Or.imp_left (Nat.le_trans (Nat.le_of_eq (hmoves n n' hn))))
    (fun t n _ hn hsteers => by
      rcases hn with hle | hcrossed
      · by_cases hlt : k < count (p t n).machine
        · exact Or.inr ⟨t, n, hsteers, hle, hlt⟩
        · exact Or.inl (Nat.not_lt.mp hlt)
      · exact Or.inr hcrossed)).1
  exact hends.resolve_left (Nat.not_le.mpr hend)

/-! ### Courses from parts -/

theorem move_done {m' : Machine} (h : c.moves m m') (a : α) : Course c m fun _ => .done a m' := .move h (.done a)

theorem ask_only {task : Task} (h : c.asks task) (hc : ∀ t s, ¬c.catches t s) : Course c m fun p => p task m :=
  .ask task (fun o _ => o) h (fun a _ => .done a) (fun s _ hs => absurd hs (hc task s)) fun _ _ _ _ => rfl

theorem bind {r : Performer → Run β} {k : β → Performer → Run α} (hc : ∀ t s, ¬c.catches t s)
    (h : Course c m fun p => r p m) (hk : ∀ b n, Course c n fun p => k b p n) :
    Course c m fun p => (r p >>= fun b => k b p) m := by
  have hall : ∀ G : Performer → Outcome β, Course c m G →
      Course c m fun p => match G p with
        | .done b n => k b p n
        | .stopped s n => .stopped s n := by
    intro G hG
    clear h
    induction hG with
    | done b => exact hk b _
    | stop hs => exact .stop hs
    | move hmoves _ ih => exact .move hmoves ih
    | ask task next htask _ _ huncaught ih =>
      refine .ask task (fun o p => match next o p with
        | .done b n => k b p n
        | .stopped s n => .stopped s n) htask ih (fun s _ hs => absurd hs (hc task s)) fun s n hs p => ?_
      simp only [huncaught s n hs p]
  exact hall _ h

end Course

end Treewalk
