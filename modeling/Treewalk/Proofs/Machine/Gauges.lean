import Treewalk.Proofs.Machine.Surroundings

/-!
Counts that only ever grow in the course of a program, such as the number of notices or of lines that were read. If only
certain activities move a count by themselves, and these ask for nothing, then each value that the count passes is passed
in exactly one of them: so the sources of a count stand in a row, each beginning where the one before it ended.
-/

namespace Treewalk

section
variable (count : Machine → Nat) [Ambient fun m m' => count m ≤ count m']

theorem Ambient.count_aside (m : Machine) (heap : Heap) (frame : FrameId) (depth : Nat) (sink : Sink) :
    count { m with heap, frame, depth, sink } = count m :=
  Nat.le_antisymm
    (aside (R := fun m m' => count m ≤ count m') { m with heap, frame, depth, sink } m.heap m.frame m.depth m.sink)
    (aside (R := fun m m' => count m ≤ count m') m heap frame depth sink)

theorem Machine.count_inFrame (frame : FrameId) (m : Machine) : count (m.inFrame frame) = count m :=
  Ambient.count_aside count m m.heap frame m.depth m.sink

theorem Machine.count_inBlock (m : Machine) : count m.inBlock = count m :=
  Ambient.count_aside count m m.inBlock.heap m.inBlock.frame m.depth m.sink

theorem Machine.count_entered? {m : Machine} {callee : Value} {arguments : List Value} {e : Entry}
    (he : m.entered? callee arguments = some e) : count e.machine = count m := by
  obtain ⟨heap, heq⟩ := Machine.entered?_heap he
  rw [heq]
  exact Ambient.count_aside count m heap m.frame m.depth m.sink

theorem Entry.count_inside (e : Entry) (arguments : List Value) : count (e.inside arguments) = count e.machine :=
  Ambient.count_aside count e.machine (e.inside arguments).heap (e.inside arguments).frame (e.inside arguments).depth
    e.machine.sink

theorem Entry.count_finish (e : Entry) (o : Outcome Unit) : count (e.finish o).machine = count o.machine := by
  have hleave : count (Entry.leave (o.machine.inFrame e.machine.frame)) = count o.machine :=
    Ambient.count_aside count o.machine o.machine.heap e.machine.frame (o.machine.depth - 1) o.machine.sink
  rcases e.machine_finish o with h | ⟨id, classId, h⟩ <;> rw [h]
  · exact hleave
  · exact (Ambient.count_aside count (Entry.leave (o.machine.inFrame e.machine.frame)) _ _ _ _).trans hleave

end

/-- The count passes the value while the activity is under way. -/
def Activity.Passes (count : Machine → Nat) (a : Activity) (k : Nat) : Prop :=
  count a.machine ≤ k ∧ k < count a.outcome.machine

/-- The count only grows, and by itself only in the sources, which ask for nothing. -/
structure Gauge (count : Machine → Nat) (source : Activity → Prop) : Prop where
  moves : ∀ a, a.steps ≠ 0 → ¬source a → ∀ m m', a.task.Moves m m' → count m' = count m
  silent : ∀ a b, source a → ¬a.AsksFor b

namespace Activity

section
variable {count : Machine → Nat} [Stepwise fun m m' => count m ≤ count m'] {a b c : Activity} {k : Nat}

theorem AsksFor.passes (h : a.AsksFor b) (hk : b.Passes count k) : a.Passes count k :=
  ⟨Nat.le_trans (h.begins (R := fun m m' => count m ≤ count m')) hk.1,
    Nat.lt_of_lt_of_le hk.2 (h.answered (R := fun m m' => count m ≤ count m'))⟩

theorem AsksFor.passes_unique (hb : a.AsksFor b) (hc : a.AsksFor c) (hbk : b.Passes count k)
    (hck : c.Passes count k) : b = c := by
  obtain ⟨hb⟩ := hb
  cases hc with
  | intro hc =>
    rcases (perform_ordered (fun m m' => count m ≤ count m') _ _ _).turns _ _ _ _ hb hc with ⟨rfl, rfl⟩ | h | h
    · rfl
    · exact absurd (Nat.le_trans h hck.1) (Nat.not_le.mpr hbk.2)
    · exact absurd (Nat.le_trans h hbk.1) (Nat.not_le.mpr hck.2)

end

variable {count : Machine → Nat} [Ambient fun m m' => count m ≤ count m'] {a : Activity} {k : Nat}

/-- If a task does not move the count by itself, then a task that it asks for does. -/
theorem Passes.asked (hk : a.Passes count k) (hmoves : ∀ m m', a.task.Moves m m' → count m' = count m) :
    ∃ b, a.AsksFor b ∧ b.Passes count k := by
  obtain ⟨_ | steps, task, m⟩ := a
  · exact absurd hk.1 (Nat.not_le.mpr hk.2)
  have hstart : count m ≤ k := hk.1
  have hcrosses : Course.Crosses (fun p => Evaluation.performOver p steps task m) (perform steps) count k := by
    cases task.manner steps m with
    | plain hcourse => exact hcourse.crosses count hstart hmoves hk.2
    | @block body =>
      have hend : k < count (Evaluation.execution (perform steps) steps (.block body) m).machine := hk.2
      rw [execution_block, Outcome.machine_onMachine, Machine.count_inFrame count] at hend
      obtain ⟨t, n, hsteers, hcount⟩ :=
        (course_body body m.inBlock).crosses count (Machine.count_inBlock count m ▸ hstart) nofun hend
      exact ⟨t, n, steers_block hsteers, hcount⟩
    | @refused callee arguments line _ e he hd =>
      have hend : k < count (Evaluation.invocation (perform steps) callee arguments line m).machine := hk.2
      rw [invocation_of_entry _ line he, if_pos hd] at hend
      exact absurd hstart (Nat.not_le.mpr (Machine.count_entered? count he ▸ hend))
    | @entered callee arguments line _ e he hd =>
      have hend : k < count (Evaluation.invocation (perform steps) callee arguments line m).machine := hk.2
      rw [invocation_of_entry _ line he, if_neg hd, Entry.count_finish count] at hend
      have hbegin : count (e.inside arguments) ≤ k := by
        rw [Entry.count_inside count, Machine.count_entered? count he]
        exact hstart
      obtain ⟨t, n, hsteers, hcount⟩ := (course_body _ (e.inside arguments)).crosses count hbegin nofun hend
      exact ⟨t, n, steers_entered he hd hsteers, hcount⟩
  obtain ⟨t, n, hsteers, hle, hlt⟩ := hcrosses
  exact ⟨⟨steps, t, n⟩, .intro hsteers.asks, hle, hlt⟩

end Activity

namespace Machine

variable {steps : Nat} {program : List Stmt} {s : Stmt} {rest : List Stmt} {m : Machine} {a b : Activity}
  {outer below stack : List Activity} {k : Nat}

namespace Underway

theorem cases_cons (h : m.Underway steps (s :: rest) stack) :
    [⟨steps, .execute s, m⟩] <:+ stack ∨ ∃ m₁, m.next? steps s = some m₁ ∧ m₁.Underway steps rest stack := by
  generalize hprogram : s :: rest = program at h
  induction h with
  | here =>
    cases hprogram
    exact Or.inl (List.suffix_refl _)
  | later hnext hrest _ =>
    cases hprogram
    exact Or.inr ⟨_, hnext, hrest⟩
  | within _ hasks ih =>
    rcases ih hprogram with hsuffix | ⟨m₁, hnext, hrest⟩
    · exact Or.inl (hsuffix.trans (List.suffix_cons _ _))
    · exact Or.inr ⟨m₁, hnext, hrest.within hasks⟩

/-- On top of an activity that is not the newest one stands one that it asked for. -/
theorem suffix_step (h : m.Underway steps program stack) (hsuffix : a :: outer <:+ stack) :
    a :: outer = stack ∨ ∃ b, a.AsksFor b ∧ b :: a :: outer <:+ stack := by
  induction h with
  | here =>
    rcases List.suffix_cons_iff.mp hsuffix with heq | htail
    · exact Or.inl heq
    · cases List.suffix_nil.mp htail
  | later _ _ ih => exact ih hsuffix
  | within _ hasks ih =>
    rcases List.suffix_cons_iff.mp hsuffix with heq | htail
    · exact Or.inl heq
    · rcases ih htail with heq | ⟨b, hb, hbs⟩
      · cases heq
        exact Or.inr ⟨_, hasks, List.suffix_refl _⟩
      · exact Or.inr ⟨b, hb, hbs.trans (List.suffix_cons _ _)⟩

variable {count : Machine → Nat} [Stepwise fun m m' => count m ≤ count m']

/-- What is passed while the newest activity is under way is passed while all below it are. -/
theorem passes_of_suffix (h : m.Underway steps program (b :: below)) (hsuffix : a :: outer <:+ b :: below)
    (hk : b.Passes count k) : a.Passes count k := by
  generalize hstack : b :: below = stack at h hsuffix
  induction h generalizing b below with
  | here =>
    cases hstack
    rcases List.suffix_cons_iff.mp hsuffix with heq | htail
    · cases heq
      exact hk
    · cases List.suffix_nil.mp htail
  | later _ _ ih => exact ih hk hstack hsuffix
  | within _ hasks ih =>
    cases hstack
    rcases List.suffix_cons_iff.mp hsuffix with heq | htail
    · cases heq
      exact hk
    · exact ih (hasks.passes hk) rfl htail

/-- Of two stacks on which the newest activity passes the same value, one stands on the other. -/
theorem comparable (ha : m.Underway steps program (a :: outer)) (hb : m.Underway steps program (b :: below))
    (hak : a.Passes count k) (hbk : b.Passes count k) : a :: outer <:+ b :: below ∨ b :: below <:+ a :: outer := by
  generalize hstack : a :: outer = stack at ha
  induction ha generalizing a outer with
  | @here s _ m =>
    cases hstack
    rcases hb.cases_cons with hsuffix | ⟨m₁, hnext, hrest⟩
    · exact Or.inl hsuffix
    · -- A later statement begins behind what this one passes.
      have hlt : k < count m₁ := machine_of_next? hnext ▸ hak.2
      have hle : count m₁ ≤ count b.machine := hrest.begins (R := fun m m' => count m ≤ count m')
      exact absurd (Nat.le_trans hle hbk.1) (Nat.not_le.mpr hlt)
  | @later s _ m m₁ _ hnext hrest ih =>
    subst hstack
    rcases hb.cases_cons with hsuffix | ⟨m₂, hnext', hrest'⟩
    · have hfirst := hb.passes_of_suffix hsuffix hbk
      have hlt : k < count m₁ := machine_of_next? hnext ▸ hfirst.2
      have hle : count m₁ ≤ count a.machine := hrest.begins (R := fun m m' => count m ≤ count m')
      exact absurd (Nat.le_trans hle hak.1) (Nat.not_le.mpr hlt)
    · cases hnext.symm.trans hnext'
      exact ih hrest' hak rfl
  | @within _ m c _ outer hc hasks ih =>
    cases hstack
    rcases ih hb (hasks.passes hak) rfl with hsuffix | hsuffix
    · -- The other stack goes on above the same activity, by the one that passes the value.
      rcases hb.suffix_step hsuffix with heq | ⟨d, hd, hds⟩
      · exact Or.inr (heq ▸ List.suffix_cons _ _)
      · cases hasks.passes_unique hd hak (hb.passes_of_suffix hds hbk)
        exact Or.inl hds
    · exact Or.inr (hsuffix.trans (List.suffix_cons _ _))

end Underway

/-- What a program passes, one of its statements passes. -/
theorem exists_passes (count : Machine → Nat) [Ambient fun m m' => count m ≤ count m'] (hk : count m ≤ k)
    (hlt : k < count (m.interpret steps program).2) :
    ∃ a outer, m.Underway steps program (a :: outer) ∧ a.Passes count k := by
  induction program generalizing m with
  | nil =>
    rw [interpret_nil, Ambient.count_aside count m m.heap m.frame m.depth m.sink.flush.1] at hlt
    exact absurd hk (Nat.not_le.mpr hlt)
  | cons s rest ih =>
    by_cases hfirst : k < count (perform steps (.execute s) m).machine
    · exact ⟨⟨steps, .execute s, m⟩, [], .here, hk, hfirst⟩
    · rcases interpret_cons steps s rest m with ⟨m₁, hnext, heq⟩ | ⟨-, heq⟩
      · rw [machine_of_next? hnext] at hfirst
        rw [heq] at hlt
        obtain ⟨a, outer, ha, hak⟩ := ih (Nat.not_lt.mp hfirst) hlt
        exact ⟨a, outer, .later hnext ha, hak⟩
      · have hlast : count (m.interpret steps (s :: rest)).2 = count (perform steps (.execute s) m).machine := by
          rcases heq with heq | heq <;> rw [heq]
          exact Ambient.count_aside count _ (perform steps (.execute s) m).machine.heap _ _ _
        exact absurd (hlast ▸ hlt) hfirst

end Machine

namespace Gauge

variable {count : Machine → Nat} [Ambient fun m m' => count m ≤ count m'] {source : Activity → Prop} {steps k : Nat}
  {program : List Stmt} {m : Machine} {a b : Activity} {outer below : List Activity}

/-- What an activity passes, a source passes that is under way on top of it. -/
theorem exists_source (g : Gauge count source) (h : m.Underway steps program (a :: outer)) (hk : a.Passes count k) :
    ∃ b below, m.Underway steps program (b :: below) ∧ source b ∧ b.Passes count k := by
  obtain ⟨n, task, m'⟩ := a
  induction n generalizing task m' outer with
  | zero => exact absurd hk.1 (Nat.not_le.mpr hk.2)
  | succ n ih =>
    by_cases hsource : source ⟨n + 1, task, m'⟩
    · exact ⟨_, outer, h, hsource, hk⟩
    · obtain ⟨b, hb, hbk⟩ := hk.asked (g.moves _ (Nat.succ_ne_zero n) hsource)
      cases hb with
      | intro hasks => exact ih _ _ (h.within (.intro hasks)) hbk

/-- Two sources that pass the same value are the same, on the same stack. -/
theorem unique (g : Gauge count source) (ha : m.Underway steps program (a :: outer))
    (hb : m.Underway steps program (b :: below)) (hsa : source a) (hsb : source b) (hak : a.Passes count k)
    (hbk : b.Passes count k) : a :: outer = b :: below := by
  rcases ha.comparable hb hak hbk with hsuffix | hsuffix
  · rcases hb.suffix_step hsuffix with heq | ⟨c, hc, -⟩
    · exact heq
    · exact absurd hc (g.silent _ _ hsa)
  · rcases ha.suffix_step hsuffix with heq | ⟨c, hc, -⟩
    · exact heq.symm
    · exact absurd hc (g.silent _ _ hsb)

/-- Activities, with the stacks on which they stand, each of which begins at the count where the one before it ended. -/
inductive Linked (count : Machine → Nat) : Nat → List (Activity × List Activity) → Nat → Prop where
  | nil (k : Nat) : Linked count k [] k
  | cons {a outer rest last} : Linked count (count a.outcome.machine) rest last →
      Linked count (count a.machine) ((a, outer) :: rest) last

/-- The activity is a source that is under way on the stack, and the count moves in it. -/
def Drives (count : Machine → Nat) (source : Activity → Prop) (m : Machine) (steps : Nat) (program : List Stmt)
    (x : Activity × List Activity) : Prop :=
  m.Underway steps program (x.1 :: x.2) ∧ source x.1 ∧ count x.1.machine < count x.1.outcome.machine

/-- If no source takes the count across the given one, then those behind it stand in a row up to the end. -/
theorem exists_linked_from (g : Gauge count source) {n p : Nat} (hm : count m ≤ p)
    (hend : p + n = count (m.interpret steps program).2)
    (hborder : ∀ b below, m.Underway steps program (b :: below) → source b → b.Passes count p → p ≤ count b.machine) :
    ∃ sources, Linked count p sources (count (m.interpret steps program).2) ∧ sources.Nodup ∧
      ∀ x, x ∈ sources ↔ Drives count source m steps program x ∧ p ≤ count x.1.machine := by
  have hends : ∀ b below, m.Underway steps program (b :: below) →
      count b.outcome.machine ≤ count (m.interpret steps program).2 := fun b below hb =>
    hb.ends (R := fun m m' => count m ≤ count m')
  induction n using Nat.strongRecOn generalizing p with
  | _ n ih =>
    rcases Nat.eq_zero_or_pos n with rfl | hpos
    · refine ⟨[], hend ▸ .nil p, List.nodup_nil, fun x => ⟨nofun, fun ⟨⟨hx, _, hlt⟩, hle⟩ => ?_⟩⟩
      have := hends _ _ hx
      omega
    · have hlast : p < count (m.interpret steps program).2 := by omega
      obtain ⟨a, outer, ha, hak⟩ := Machine.exists_passes count hm hlast
      obtain ⟨b, below, hb, hsource, hbegin, hpast⟩ := g.exists_source ha hak
      obtain rfl : p = count b.machine := Nat.le_antisymm (hborder b below hb hsource ⟨hbegin, hpast⟩) hbegin
      -- A source that passes where this one ended began there: else both would pass the value before.
      have hborder' : ∀ c further, m.Underway steps program (c :: further) → source c →
          c.Passes count (count b.outcome.machine) → count b.outcome.machine ≤ count c.machine := by
        intro c further hc hsc hck
        refine Nat.not_lt.mp fun hlt => ?_
        have hmax : max (count b.machine) (count c.machine) < count b.outcome.machine := Nat.max_lt.mpr ⟨hpast, hlt⟩
        have hsame := g.unique hb hc hsource hsc ⟨Nat.le_max_left _ _, hmax⟩
          ⟨Nat.le_max_right _ _, Nat.lt_trans hmax hck.2⟩
        cases hsame
        exact absurd hck.2 (Nat.lt_irrefl _)
      have hle := hends b below hb
      obtain ⟨sources, hlinked, hnodup, hmem⟩ := ih (count (m.interpret steps program).2 - count b.outcome.machine)
        (by omega) (p := count b.outcome.machine) (by omega) (by omega) hborder'
      refine ⟨(b, below) :: sources, .cons hlinked, List.nodup_cons.mpr ⟨fun hin => ?_, hnodup⟩, fun x => ?_⟩
      · exact absurd ((hmem _).mp hin).2 (Nat.not_le.mpr hpast)
      · rw [List.mem_cons, hmem]
        constructor
        · rintro (rfl | ⟨hx, hle'⟩)
          · exact ⟨⟨hb, hsource, hpast⟩, Nat.le_refl _⟩
          · exact ⟨hx, by omega⟩
        · rintro ⟨hx, hle'⟩
          by_cases hlt : count x.1.machine < count b.outcome.machine
          · have hsame := g.unique hx.1 hb hx.2.1 hsource ⟨Nat.le_refl _, hx.2.2⟩ ⟨hle', hlt⟩
            exact Or.inl (Prod.ext (List.cons.inj hsame).1 (List.cons.inj hsame).2)
          · exact Or.inr ⟨hx, Nat.not_lt.mp hlt⟩

/-- The sources in which the count moves stand in a row from the beginning of a program to its end. -/
theorem exists_linked (g : Gauge count source) (m : Machine) (steps : Nat) (program : List Stmt) :
    ∃ sources, Linked count (count m) sources (count (m.interpret steps program).2) ∧ sources.Nodup ∧
      ∀ x, x ∈ sources ↔ Drives count source m steps program x := by
  have hbegins : ∀ b below, m.Underway steps program (b :: below) → count m ≤ count b.machine := fun b below hb =>
    hb.begins (R := fun m m' => count m ≤ count m')
  have hgrows := Machine.interpret_stepwise (fun m m' => count m ≤ count m') steps program m
  obtain ⟨sources, hlinked, hnodup, hmem⟩ := g.exists_linked_from (Nat.le_refl _) (Nat.add_sub_cancel' hgrows)
    fun b below hb _ _ => hbegins b below hb
  exact ⟨sources, hlinked, hnodup, fun x => (hmem x).trans ⟨And.left, fun hx => ⟨hx, hbegins _ _ hx.1⟩⟩⟩

end Gauge

end Treewalk
