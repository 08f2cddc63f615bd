import Treewalk.Machine.Interpretation

/-!
Reasoning about runs. A run is steady if it leads from a machine only to machines that are related to it, however it
ends, and if it comes to the same with another way to do the tasks within it. The second part tells which tasks a run
asks for: those on whose answer its outcome depends.
-/

namespace Treewalk

/-- The outcome is a result of which the first one holds, or a signal of which the second one holds. -/
def Outcome.Meets {α : Type} (Q : α → Machine → Prop) (S : Signal → Machine → Prop) : Outcome α → Prop
  | .done a m => Q a m
  | .stopped s m => S s m

/-- Relations between machines that runs can be followed along: to where they come to a result, and to where a signal
stops them. The machines on which runs may begin are those that are related to themselves. -/
class Followed (R : Machine → Machine → Prop) (S : Machine → Signal → Machine → Prop) : Prop where
  trans : ∀ {m m' m''}, R m m' → R m' m'' → R m m''
  carry : ∀ {m m' m'' s}, R m m' → S m' s m'' → S m s m''
  stop : ∀ {m s}, R m m → (∀ value, s ≠ .returned value) → S m s m
  broke : ∀ {m m'}, S m .broke m' → R m m'
  returned : ∀ {m m' value}, S m (.returned value) m' → R m m'

/-- From the given machine the second run comes to the same as the first, which keeps to the relations, with results as
said. -/
structure Traced (R : Machine → Machine → Prop) (S : Machine → Signal → Machine → Prop) {α : Type} (m : Machine)
    (r r' : Run α) (Q : α → Machine → Prop) : Prop where
  same : r' m = r m
  meets : (r m).Meets (fun a m' => R m m' ∧ Q a m') (S m)

namespace Traced

variable {R : Machine → Machine → Prop} {S : Machine → Signal → Machine → Prop} {α β : Type} {m m' : Machine}
  {Q : α → Machine → Prop}

variable {r r' : Run α} {a : α}

theorem of_done (h : r m = .done a m') (h' : r' m = r m) (hR : R m m') (hQ : Q a m') :
    Traced R S m r r' Q := ⟨h', by rw [h]; exact ⟨hR, hQ⟩⟩

theorem of_stopped {s : Signal} (h : r m = .stopped s m') (h' : r' m = r m) (hS : S m s m') :
    Traced R S m r r' Q := ⟨h', by rw [h]; exact hS⟩

theorem done (h : Traced R S m r r' Q) (hr : r m = .done a m') : r' m = .done a m' ∧ R m m' ∧ Q a m' := by
  have hmeets := h.meets
  rw [hr] at hmeets
  exact ⟨h.same.trans hr, hmeets⟩

theorem stopped {s : Signal} (h : Traced R S m r r' Q) (hr : r m = .stopped s m') :
    r' m = .stopped s m' ∧ S m s m' := by
  have hmeets := h.meets
  rw [hr] at hmeets
  exact ⟨h.same.trans hr, hmeets⟩

theorem pure (hm : R m m) (h : Q a m) : Traced R S m (Pure.pure a) (Pure.pure a) Q := of_done rfl rfl hm h

theorem look {f : Machine → α} (hm : R m m) (h : Q (f m) m) : Traced R S m (Run.look f) (Run.look f) Q :=
  of_done rfl rfl hm h

theorem change {f : Machine → Machine} {Q : Unit → Machine → Prop} (hR : R m (f m)) (hQ : Q () (f m)) :
    Traced R S m (Run.change f) (Run.change f) Q :=
  of_done rfl rfl hR hQ

theorem onHeap {f : Heap → α × Heap} (hR : R m { m with heap := (f m.heap).2 })
    (hQ : Q (f m.heap).1 { m with heap := (f m.heap).2 }) : Traced R S m (Run.onHeap f) (Run.onHeap f) Q :=
  of_done rfl rfl hR hQ

theorem imp {Q' : α → Machine → Prop} (h : Traced R S m r r' Q) (hQ : ∀ a m', R m m' → Q a m' → Q' a m') :
    Traced R S m r r' Q' := by
  cases hr : r m with
  | done a m' =>
    obtain ⟨-, hR, ha⟩ := h.done hr
    exact of_done hr h.same hR (hQ a m' hR ha)
  | stopped s m' => exact of_stopped hr h.same (h.stopped hr).2

/-- A run in another frame, if the relations do not suffer from coming back. -/
theorem inFrame {frame : FrameId} {P : α → Machine → Prop} (h : Traced R S { m with frame } r r' P)
    (hR : ∀ a m', R { m with frame } m' → P a m' → R m { m' with frame := m.frame } ∧ Q a { m' with frame := m.frame })
    (hS : ∀ s m', S { m with frame } s m' → S m s { m' with frame := m.frame }) :
    Traced R S m (Run.inFrame frame r) (Run.inFrame frame r') Q := by
  cases hr : r { m with frame } with
  | done a m' =>
    obtain ⟨hsame, hkept, ha⟩ := h.done hr
    obtain ⟨hback, hQ⟩ := hR a m' hkept ha
    exact of_done (by simp only [Run.inFrame, hr]) (by simp only [Run.inFrame, hr, hsame]) hback hQ
  | stopped s m' =>
    obtain ⟨hsame, hstop⟩ := h.stopped hr
    exact of_stopped (by simp only [Run.inFrame, hr]) (by simp only [Run.inFrame, hr, hsame]) (hS s m' hstop)

section
variable [Followed R S]

theorem stop {s : Signal} (hm : R m m) (hs : ∀ value, s ≠ .returned value) :
    Traced R S m (Run.stop s) (Run.stop s) Q :=
  of_stopped rfl rfl (Followed.stop hm hs)

theorem fail (hm : R m m) (line : Nat) (fault : RuntimeFault) :
    Traced R S m (Run.fail line fault) (Run.fail line fault) Q :=
  stop hm nofun

theorem bind {r r' : Run β} {f f' : β → Run α} {P : β → Machine → Prop} (h : Traced R S m r r' P)
    (hf : ∀ b m', R m m' → P b m' → Traced R S m' (f b) (f' b) Q) : Traced R S m (r >>= f) (r' >>= f') Q := by
  have hbind : ∀ (r : Run β) (f : β → Run α), (r >>= f) = Run.bind r f := fun _ _ => rfl
  simp only [hbind]
  cases hr : r m with
  | done b m' =>
    obtain ⟨hr', hR, hb⟩ := h.done hr
    have hrest := hf b m' hR hb
    have hsame : Run.bind r' f' m = Run.bind r f m := by simp only [Run.bind, hr, hr', hrest.same]
    cases hfb : f b m' with
    | done a m'' =>
      obtain ⟨-, hR', ha⟩ := hrest.done hfb
      exact of_done (by simp only [Run.bind, hr, hfb]) hsame (Followed.trans S hR hR') ha
    | stopped s m'' =>
      exact of_stopped (by simp only [Run.bind, hr, hfb]) hsame (Followed.carry hR (hrest.stopped hfb).2)
  | stopped s m' =>
    obtain ⟨hr', hs⟩ := h.stopped hr
    exact of_stopped (by simp only [Run.bind, hr]) (by simp only [Run.bind, hr, hr']) hs

theorem orFail {value : Option α} {line : Nat} {fault : RuntimeFault} (hm : R m m) (h : ∀ a, value = some a → Q a m) :
    Traced R S m (Run.orFail value line fault) (Run.orFail value line fault) Q := by
  cases value with
  | none => exact fail hm line fault
  | some a => exact pure hm (h a rfl)

theorem lift {result : Except RuntimeFault α} {line : Nat} (hm : R m m) (h : ∀ a, result = .ok a → Q a m) :
    Traced R S m (Run.lift result line) (Run.lift result line) Q := by
  cases result with
  | error fault => exact fail hm line fault
  | ok a => exact pure hm (h a rfl)

/-- One more call, if the relations do not look at the number of running calls. -/
theorem nested {r r' : Run α} {line : Nat} {P : α → Machine → Prop} (hm : R m m)
    (h : Traced R S { m with depth := m.depth + 1 } r r' P)
    (hR : ∀ a m', R { m with depth := m.depth + 1 } m' → P a m' →
      R m { m' with depth := m'.depth - 1 } ∧ Q a { m' with depth := m'.depth - 1 })
    (hS : ∀ s m', S { m with depth := m.depth + 1 } s m' → S m s { m' with depth := m'.depth - 1 }) :
    Traced R S m (Run.nested line r) (Run.nested line r') Q := by
  by_cases hd : depthLimit ≤ m.depth
  · have hrefused : ∀ r : Run α, Run.nested line r m = Run.fail line .tooDeep m := fun r => if_pos hd
    exact of_stopped (hrefused r) ((hrefused r').trans (hrefused r).symm) (Followed.stop hm nofun)
  · cases hr : r { m with depth := m.depth + 1 } with
    | done a m' =>
      obtain ⟨hsame, hkept, ha⟩ := h.done hr
      obtain ⟨hback, hQ⟩ := hR a m' hkept ha
      exact of_done (by simp only [Run.nested, if_neg hd, hr]) (by simp only [Run.nested, if_neg hd, hr, hsame]) hback hQ
    | stopped s m' =>
      obtain ⟨hsame, hstop⟩ := h.stopped hr
      exact of_stopped (by simp only [Run.nested, if_neg hd, hr]) (by simp only [Run.nested, if_neg hd, hr, hsame])
        (hS s m' hstop)

/-- A loop, given what holds before each round. A break may leave the body anywhere, so that nothing but the relation
is known behind the loop. -/
theorem repeatWhile {test test' : Run Bool} {body body' : Run Unit} (I : Machine → Prop) (hI : ∀ m, I m → R m m)
    (htest : ∀ m, I m → Traced R S m test test' fun _ m' => I m')
    (hbody : ∀ m, I m → Traced R S m body body' fun _ m' => I m') (rounds : Nat) :
    ∀ m, I m → Traced R S m (Run.repeatWhile test body rounds) (Run.repeatWhile test' body' rounds) fun _ _ => True := by
  induction rounds with
  | zero => exact fun m hm => stop (hI m hm) nofun
  | succ rounds ih =>
    intro m hm
    have htested := htest m hm
    cases ht : test m with
    | stopped s m₁ =>
      obtain ⟨ht', hs⟩ := htested.stopped ht
      exact of_stopped (by simp only [Run.repeatWhile, ht]) (by simp only [Run.repeatWhile, ht, ht']) hs
    | done go m₁ =>
      obtain ⟨ht', hR, hm₁⟩ := htested.done ht
      cases go with
      | false => exact of_done (a := ()) (by simp only [Run.repeatWhile, ht]) (by simp only [Run.repeatWhile, ht, ht']) hR trivial
      | true =>
        have hround := hbody m₁ hm₁
        cases hb : body m₁ with
        | done u m₂ =>
          obtain ⟨hb', hR', hm₂⟩ := hround.done hb
          have hfirst : R m m₂ := Followed.trans S hR hR'
          have hrest := ih m₂ hm₂
          have heq : Run.repeatWhile test body (rounds + 1) m = Run.repeatWhile test body rounds m₂ := by
            simp only [Run.repeatWhile, ht, hb]
          have hsame : Run.repeatWhile test' body' (rounds + 1) m = Run.repeatWhile test body (rounds + 1) m := by
            rw [heq, ← hrest.same]
            simp only [Run.repeatWhile, ht', hb']
          cases hr : Run.repeatWhile test body rounds m₂ with
          | done u m₃ => exact of_done (heq.trans hr) hsame (Followed.trans S hfirst (hrest.done hr).2.1) trivial
          | stopped s m₃ => exact of_stopped (heq.trans hr) hsame (Followed.carry hfirst (hrest.stopped hr).2)
        | stopped s m₂ =>
          obtain ⟨hb', hs⟩ := hround.stopped hb
          have hstop : S m s m₂ := Followed.carry hR hs
          cases s with
          | broke =>
            exact of_done (a := ()) (by simp only [Run.repeatWhile, ht, hb])
              (by simp only [Run.repeatWhile, ht, ht', hb, hb']) (Followed.broke hstop) trivial
          | _ =>
            exact of_stopped (by simp only [Run.repeatWhile, ht, hb]) (by simp only [Run.repeatWhile, ht, ht', hb, hb'])
              hstop

/-- The end of a call looks at nothing but the receiver. -/
theorem result {body body' : Run Unit} {P : Unit → Machine → Prop} {Q : Value → Machine → Prop} (f : Closure)
    (h : Traced R S m body body' P) (hm : ∀ m', R m m' → R m' m')
    (hreceiver : ∀ value m', R m m' → P () m' → m'.heap.getOwn? f.frame receiverName = some value → Q value m')
    (hnil : ∀ m', R m m' → P () m' → Q .nil m') (hreturned : ∀ value m', S m (.returned value) m' → Q value m') :
    Traced R S m (Evaluation.result f body) (Evaluation.result f body') Q := by
  cases hr : body m with
  | done u m₁ =>
    obtain ⟨hr', hR, hP⟩ := h.done hr
    have hsame : Evaluation.result f body' m = Evaluation.result f body m := by simp only [Evaluation.result, hr, hr']
    by_cases hf : f.isInitializer
    · have heq : Evaluation.result f body m = Evaluation.receiver f m₁ := by simp only [Evaluation.result, hr, if_pos hf]
      have hlook : Evaluation.receiver f m₁ =
          Run.orFail (m₁.heap.getOwn? f.frame receiverName) f.routine.name.line (.undefinedVariable receiverName) m₁ := rfl
      cases hvalue : m₁.heap.getOwn? f.frame receiverName with
      | none =>
        rw [hvalue] at hlook
        exact of_stopped (heq.trans hlook) hsame (Followed.carry hR (Followed.stop (hm m₁ hR) nofun))
      | some value =>
        rw [hvalue] at hlook
        exact of_done (heq.trans hlook) hsame hR (hreceiver value m₁ hR hP hvalue)
    · exact of_done (by simp only [Evaluation.result, hr, if_neg hf]) hsame hR (hnil m₁ hR hP)
  | stopped s m₁ =>
    obtain ⟨hr', hs⟩ := h.stopped hr
    have hsame : Evaluation.result f body' m = Evaluation.result f body m := by simp only [Evaluation.result, hr, hr']
    cases s with
    | returned value =>
      exact of_done (by simp only [Evaluation.result, hr]) hsame (Followed.returned hs) (hreturned value m₁ hs)
    | _ => exact of_stopped (by simp only [Evaluation.result, hr]) hsame hs

end

end Traced

/-! ### Runs that stay within a relation -/

/-- A relation between machines that runs can be followed along. -/
class Lasting (R : Machine → Machine → Prop) : Prop where
  refl : ∀ m, R m m
  trans : ∀ {m m' m''}, R m m' → R m' m'' → R m m''

/-- The outcome is a machine that is related to the given one, and if there is a result, it is as said. -/
def Outcome.Within {α : Type} (R : Machine → Machine → Prop) (m : Machine) (Q : α → Machine → Prop) : Outcome α → Prop
  | .done a m' => R m m' ∧ Q a m'
  | .stopped _ m' => R m m'

/-- From the given machine the second run comes to the same as the first, which stays within the relation. -/
structure Steady (R : Machine → Machine → Prop) {α : Type} (m : Machine) (r r' : Run α) (Q : α → Machine → Prop) :
    Prop where
  same : r' m = r m
  within : (r m).Within R m Q

instance {R : Machine → Machine → Prop} [Lasting R] : Followed R fun m _ m' => R m m' where
  trans := Lasting.trans
  carry := Lasting.trans
  stop hm _ := hm
  broke h := h
  returned h := h

namespace Steady

variable {R : Machine → Machine → Prop} {α β : Type} {m : Machine} {Q : α → Machine → Prop}

theorem traced_iff {r r' : Run α} : Traced R (fun m _ m' => R m m') m r r' Q ↔ Steady R m r r' Q := by
  have hends : ∀ o : Outcome α, (o.Meets (fun a m' => R m m' ∧ Q a m') fun _ m' => R m m') ↔ o.Within R m Q := by
    intro o
    cases o <;> exact Iff.rfl
  exact ⟨fun h => ⟨h.same, (hends _).mp h.meets⟩, fun h => ⟨h.same, (hends _).mpr h.within⟩⟩

theorem of_done {r : Run α} {a : α} {m' : Machine} (h : r m = .done a m') (hR : R m m') (hQ : Q a m') :
    Steady R m r r Q := traced_iff.mp (Traced.of_done h rfl hR hQ)

theorem change {f : Machine → Machine} {Q : Unit → Machine → Prop} (hR : R m (f m)) (hQ : Q () (f m)) :
    Steady R m (Run.change f) (Run.change f) Q :=
  of_done rfl hR hQ

theorem onHeap {f : Heap → α × Heap} (hR : R m { m with heap := (f m.heap).2 })
    (hQ : Q (f m.heap).1 { m with heap := (f m.heap).2 }) : Steady R m (Run.onHeap f) (Run.onHeap f) Q :=
  of_done rfl hR hQ

theorem imp {r r' : Run α} {Q' : α → Machine → Prop} (h : Steady R m r r' Q)
    (hQ : ∀ a m', R m m' → Q a m' → Q' a m') : Steady R m r r' Q' :=
  traced_iff.mp ((traced_iff.mpr h).imp hQ)

/-- A run in another frame, if the relation does not suffer from coming back. -/
theorem inFrame {r r' : Run α} {frame : FrameId} {P : α → Machine → Prop} (h : Steady R { m with frame } r r' P)
    (hR : ∀ m', R { m with frame } m' → R m { m' with frame := m.frame })
    (hQ : ∀ a m', R { m with frame } m' → P a m' → Q a { m' with frame := m.frame }) :
    Steady R m (Run.inFrame frame r) (Run.inFrame frame r') Q :=
  traced_iff.mp ((traced_iff.mpr h).inFrame (fun a m' hm' ha => ⟨hR m' hm', hQ a m' hm' ha⟩) fun _ => hR)

variable [Lasting R]

theorem pure {a : α} (h : Q a m) : Steady R m (Pure.pure a) (Pure.pure a) Q :=
  of_done rfl (Lasting.refl m) h

theorem stop (s : Signal) : Steady R m (Run.stop s) (Run.stop s) Q := ⟨rfl, Lasting.refl m⟩

theorem fail (line : Nat) (fault : RuntimeFault) : Steady R m (Run.fail line fault) (Run.fail line fault) Q :=
  stop _

theorem look {f : Machine → α} (h : Q (f m) m) : Steady R m (Run.look f) (Run.look f) Q :=
  of_done rfl (Lasting.refl m) h

variable {r r' : Run β} {line : Nat}

theorem bind {f f' : β → Run α} {P : β → Machine → Prop} (h : Steady R m r r' P)
    (hf : ∀ b m', R m m' → P b m' → Steady R m' (f b) (f' b) Q) : Steady R m (r >>= f) (r' >>= f') Q :=
  traced_iff.mp ((traced_iff.mpr h).bind fun b m' hR hb => traced_iff.mpr (hf b m' hR hb))

theorem map {f : β → α} {P : β → Machine → Prop} (h : Steady R m r r' P) (hQ : ∀ b m', P b m' → Q (f b) m') :
    Steady R m (f <$> r) (f <$> r') Q :=
  h.bind fun b m' _ hb => pure (hQ b m' hb)

theorem discard {P : β → Machine → Prop} {Q : Unit → Machine → Prop} (h : Steady R m r r' P)
    (hQ : ∀ b m', P b m' → Q () m') : Steady R m (Functor.discard r) (Functor.discard r') Q :=
  h.bind fun b m' _ hb => pure (hQ b m' hb)

theorem orFail {value : Option α} {fault : RuntimeFault} (h : ∀ a, Q a m) :
    Steady R m (Run.orFail value line fault) (Run.orFail value line fault) Q :=
  traced_iff.mp (Traced.orFail (Lasting.refl m) fun a _ => h a)

theorem lift {result : Except RuntimeFault α} (h : ∀ a, Q a m) :
    Steady R m (Run.lift result line) (Run.lift result line) Q :=
  traced_iff.mp (Traced.lift (Lasting.refl m) fun a _ => h a)

/-- One more call, if the relation does not look at the number of running calls. -/
theorem nested {r r' : Run α} {P : α → Machine → Prop} (h : Steady R { m with depth := m.depth + 1 } r r' P)
    (hR : ∀ m', R { m with depth := m.depth + 1 } m' → R m { m' with depth := m'.depth - 1 })
    (hQ : ∀ a m', R { m with depth := m.depth + 1 } m' → P a m' → Q a { m' with depth := m'.depth - 1 }) :
    Steady R m (Run.nested line r) (Run.nested line r') Q :=
  traced_iff.mp ((traced_iff.mpr h).nested (Lasting.refl m) (fun a m' hm' ha => ⟨hR m' hm', hQ a m' hm' ha⟩) fun _ => hR)

/-- A loop, given what holds before each round. -/
theorem repeatWhile {test test' : Run Bool} {body body' : Run Unit} (I : Machine → Prop)
    (htest : ∀ m, I m → Steady R m test test' fun _ m' => I m')
    (hbody : ∀ m, I m → Steady R m body body' fun _ m' => I m') (rounds : Nat) :
    ∀ m, I m → Steady R m (Run.repeatWhile test body rounds) (Run.repeatWhile test' body' rounds) fun _ _ => True :=
  fun m hm => traced_iff.mp (Traced.repeatWhile I (fun m _ => Lasting.refl m) (fun m hm => traced_iff.mpr (htest m hm))
    (fun m hm => traced_iff.mpr (hbody m hm)) rounds m hm)

/-- The end of a call looks at nothing but the receiver. -/
theorem result {body body' : Run Unit} {P : Unit → Machine → Prop} (f : Closure) (h : Steady R m body body' P) :
    Steady R m (Evaluation.result f body) (Evaluation.result f body') fun _ _ => True :=
  traced_iff.mp ((traced_iff.mpr h).result f (fun m' _ => Lasting.refl m') (fun _ _ _ _ _ => trivial)
    (fun _ _ _ => trivial) fun _ _ _ => trivial)

end Steady

/-- Statements run one after another. -/
theorem Evaluation.executeAll_cons (p : Performer) (s : Stmt) (rest : List Stmt) :
    executeAll p (s :: rest) = execute p s >>= fun _ => executeAll p rest := by
  funext m
  show executeAll p (s :: rest) m = Run.bind (execute p s) (fun _ => executeAll p rest) m
  simp only [executeAll, Run.bind]
  cases execute p s m <;> rfl

/-! ### Runs with a known beginning -/

namespace Run

variable {α β : Type} {m m' : Machine} {s : Signal}

theorem bind_of_done {r : Run α} {f : α → Run β} {a : α} (h : r m = .done a m') : (r >>= f) m = f a m' := by
  show Run.bind r f m = f a m'
  simp only [Run.bind, h]

theorem bind_of_stopped {r : Run α} {f : α → Run β} (h : r m = .stopped s m') : (r >>= f) m = .stopped s m' := by
  show Run.bind r f m = .stopped s m'
  simp only [Run.bind, h]

theorem inFrame_of_stopped {r : Run α} {frame : FrameId} (h : r { m with frame } = .stopped s m') :
    inFrame frame r m = .stopped s { m' with frame := m.frame } := by
  simp only [inFrame, h]

theorem nested_of_stopped {r : Run α} (line : Nat) (hd : ¬depthLimit ≤ m.depth)
    (h : r { m with depth := m.depth + 1 } = .stopped s m') :
    nested line r m = .stopped s { m' with depth := m'.depth - 1 } := by
  simp only [nested, if_neg hd, h]

end Run

theorem Evaluation.result_of_suspended {f : Closure} {body : Run Unit} {m m' : Machine}
    (h : body m = .stopped .suspended m') : result f body m = .stopped .suspended m' := by
  simp only [result, h]

/-! ### Tasks that are asked for -/

/-- What comes out depends on the answer to the task on that machine. -/
def Asks {α : Type} (f : Performer → α) (p : Performer) (task : Task) (m : Machine) : Prop :=
  ∃ q : Performer, (∀ t n, ¬(t = task ∧ n = m) → q t n = p t n) ∧ f q ≠ f p

/-- In the course of the first task on the first machine the second task begins on the second machine. -/
inductive Begins : Nat → Task → Machine → Task → Machine → Prop where
  | self {steps task m} : Begins steps task m task m
  | within {steps task m task' m' task'' m''} :
      Asks (fun p => Evaluation.performOver p steps task m) (perform steps) task' m' →
      Begins steps task' m' task'' m'' → Begins (steps + 1) task m task'' m''

/-- The machine on which the next statement of a program runs, unless the program ends with this one. -/
def Machine.next? (steps : Nat) (s : Stmt) (m : Machine) : Option Machine :=
  match perform steps (.execute s) m with
  | .done _ m => some m
  | .stopped (.failed _) _ => none
  | .stopped .suspended _ => none
  | .stopped _ m => some m

/-- In the course of a program on the first machine the task begins on the second machine. -/
inductive Machine.Reaches (steps : Nat) : List Stmt → Machine → Task → Machine → Prop where
  | here {s rest m task m'} : Begins steps (.execute s) m task m' → Reaches steps (s :: rest) m task m'
  | later {s rest m m₁ task m'} : m.next? steps s = some m₁ → Reaches steps rest m₁ task m' →
      Reaches steps (s :: rest) m task m'

/-- What cannot be told apart by other answers to all but some tasks asks only for these. -/
theorem of_asks {α : Type} {Good : Task → Machine → Prop} {f : Performer → α} {p : Performer} {task : Task}
    {m : Machine} (h : ∀ q : Performer, (∀ t n, Good t n → q t n = p t n) → f q = f p) (ha : Asks f p task m) :
    Good task m := by
  obtain ⟨q, hq, hne⟩ := ha
  refine Classical.byContradiction fun hgood => hne (h q fun t n hn => hq t n ?_)
  rintro ⟨rfl, rfl⟩
  exact hgood hn

/-- What is suspended whenever a task is, and is not suspended, asks for the task. -/
theorem asks_of_suspended {α : Type} {f : Performer → Outcome α} {p : Performer} {task : Task} {m : Machine}
    (hp : ∀ n, f p ≠ .stopped .suspended n)
    (h : ∀ q : Performer, (∀ t n, ¬(t = task ∧ n = m) → q t n = p t n) → q task m = .stopped .suspended m →
      ∃ n, f q = .stopped .suspended n) : Asks f p task m := by
  classical
  let q : Performer := fun t n => if t = task ∧ n = m then .stopped .suspended n else p t n
  have hq : ∀ t n, ¬(t = task ∧ n = m) → q t n = p t n := fun t n hne => if_neg hne
  obtain ⟨n, hn⟩ := h q hq (if_pos ⟨rfl, rfl⟩)
  exact ⟨q, hq, fun heq => hp n (heq ▸ hn)⟩

/-- What each task hands on to the tasks that it asks for, it hands on to all that begin in its course. -/
theorem of_begins (Good : Task → Machine → Prop)
    (h : ∀ steps task m, Good task m → ∀ q : Performer, (∀ t n, Good t n → q t n = perform steps t n) →
      Evaluation.performOver q steps task m = Evaluation.performOver (perform steps) steps task m)
    {steps : Nat} {task task' : Task} {m m' : Machine} (hb : Begins steps task m task' m') (hgood : Good task m) :
    Good task' m' := by
  induction hb with
  | self => exact hgood
  | within hasks _ ih => exact ih (of_asks (h _ _ _ hgood) hasks)

end Treewalk
