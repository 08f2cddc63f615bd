import Treewalk.Proofs.Grammar.Calls

/-!
How many errors there can be. Each error costs a token: where a declaration is given up, the token at the error or one
that was read before it; where a target cannot be assigned to, the sign behind it. The tokens that a phrase within has
taken are not charged twice, since they are in hand only where they are read. So statements and errors together are no
more than the tokens.
-/

namespace Treewalk.Grammar

namespace Cursor

/-- The tokens ahead and the errors so far. -/
def toll (c : Cursor) : Nat :=
  c.ahead.length + c.errors.length

/-- The second position has as many tokens ahead, and as many errors. -/
def Stays (c d : Cursor) : Prop :=
  d.ahead.length = c.ahead.length ∧ d.errors.length = c.errors.length

/-- What began at `s` stays within a budget at `c` with a number of tokens in hand: nothing has been done yet, or the
toll is below the budget, also if all tokens in hand are given for errors. -/
def Within (s : Cursor) (budget held : Nat) (c : Cursor) : Prop :=
  (held = 0 ∧ s.Stays c) ∨ (c.toll + held ≤ budget ∧ c.toll < budget)

end Cursor

/-- What comes of the phrase costs no more than what it is asked for with: without a loan it costs a token, or nothing
has been done; and where it succeeds the tokens that it takes at least are not used up. -/
structure Phrase.Frugal (phrase : Phrase) (c : Cursor) (r : Parsed phrase.Tree) : Prop where
  ends : ∀ d, r.Ends d → (phrase.loan = 0 ∧ c.Stays d) ∨ d.toll < c.toll + phrase.loan
  done : ∀ a d, r = .ok a d → d.toll + phrase.least ≤ c.toll

/-- Each phrase is frugal wherever it may be asked for. -/
def Frugal (rules : Rules) : Prop :=
  ∀ (phrase : Phrase) (c : Cursor), (phrase = .declaration → c.ahead ≠ []) → phrase.Frugal c (rules phrase c)

namespace Cursor.Within

variable {s c d : Cursor} {budget held more : Nat}

theorem here (h : s.Within budget held c) : s.Stays c ∨ c.toll < budget :=
  Or.imp And.right And.right h

theorem move (h : s.Within budget held c) (hs : s.toll ≤ budget) (hm : Move held c more d) : s.Within budget more d := by
  cases hm with
  | @pass held c t rest ha =>
    have hlength : c.ahead.length = rest.length + 1 := by rw [ha, List.length_cons]
    refine Or.inr ?_
    simp only [Within, Stays, toll, pass_ahead, pass_errors] at *
    omega
  | fresh => exact h
  | report e =>
    simp only [Within, Stays, toll, report, List.length_append, List.length_cons, List.length_nil] at *
    omega

theorem ask {phrase : Phrase} {r : Parsed phrase.Tree} (h : s.Within budget held c) (hs : s.toll ≤ budget)
    (hp : phrase.Affordable held c) (hr : phrase.Frugal c r) :
    (∀ d, r.Ends d → s.Stays d ∨ d.toll < budget) ∧
      ∀ a d, r = .ok a d → s.Within budget (held + phrase.least) d := by
  have hloan := hp.1
  constructor
  · intro d hd
    have := hr.ends d hd
    simp only [Within, Stays, toll] at *
    omega
  · intro a d hd
    have hends := hr.ends d (hd ▸ .ok)
    have hdone := hr.done a d hd
    simp only [Within, Stays, toll] at *
    omega

end Cursor.Within

/-- A descent that begins within a budget ends within it. -/
theorem Descent.frugal {α : Type} {least held : Nat} {c s : Cursor} {budget : Nat} {run : Rules → Parsed α} {rules : Rules}
    (hr : Frugal rules) (hs : s.toll ≤ budget) (h : Descent least held c run) : s.Within budget held c →
      (∀ d, (run rules).Ends d → s.Stays d ∨ d.toll < budget) ∧ ∀ a d, run rules = .ok a d → d.toll + least ≤ budget := by
  induction h with
  | @done held c a h =>
    intro hc
    constructor
    · intro d hd
      obtain rfl := hd.eq_of_ok
      exact hc.here
    · rintro b d hd
      cases hd
      simp only [Cursor.Within, Cursor.Stays, Cursor.toll] at *
      omega
  | @fail held c e =>
    intro hc
    constructor
    · intro d hd
      obtain rfl := hd.eq_of_failed
      exact hc.here
    · intro a d hd
      cases hd
  | move h _ ih => exact fun hc => ih (hc.move hs h)
  | @ask held c phrase rest h _ ih =>
    intro hc
    obtain ⟨hends, hdone⟩ := hc.ask hs h (hr phrase c h.2)
    constructor
    · intro d hd
      rcases hd.andThen with ⟨a, e, hq, hd⟩ | ⟨error, hq⟩
      · exact (ih a e (hdone a e hq)).1 d hd
      · exact hends d (hq ▸ .failed)
    · intro b d hd
      cases hq : rules phrase c with
      | ok a e =>
        dsimp only at hd
        rw [hq] at hd
        exact (ih a e (hdone a e hq)).2 b d hd
      | failed error e =>
        dsimp only at hd
        rw [hq] at hd
        cases hd
      | exhausted =>
        dsimp only at hd
        rw [hq] at hd
        cases hd

/-! ### Declarations that are given up -/

theorem Cursor.advance_errors (c : Cursor) : c.advance.errors = c.errors := by
  unfold advance
  split <;> rfl

theorem Cursor.resume_errors (c : Cursor) : c.resume.errors = c.errors :=
  c.advance_errors

section Productions
variable {rules : Rules} (hr : Frugal rules) {c d : Cursor}
include hr

theorem frugal_declared : (∀ d, (declared rules c).Ends d → c.Stays d ∨ d.toll < c.toll) ∧
    ∀ s d, declared rules c = .ok s d → d.toll + 1 ≤ c.toll :=
  (descends_declared c).frugal hr (Nat.le_refl _) (Or.inl ⟨rfl, rfl, rfl⟩)

/-- A declaration that is given up costs the token at the error, or one that was read before it. -/
theorem frugal_declaration (hne : c.ahead ≠ []) {s : Option Stmt} (h : declaration rules c = .ok s d) :
    d.toll + s.toList.length ≤ c.toll := by
  unfold declaration at h
  split at h
  · next hd =>
    cases h
    exact (frugal_declared hr).2 _ _ hd
  · next e next hd =>
    cases h
    have hstart := List.length_pos_iff.mpr hne
    have hnext := (frugal_declared hr).1 next (Or.inr ⟨e, hd⟩)
    have hresume := (next.report e).resume_length_le
    have herrors : (next.report e).resume.errors.length = next.errors.length + 1 := by
      rw [Cursor.resume_errors, Cursor.report, List.length_append, List.length_singleton]
    rw [Cursor.report_ahead] at hresume
    simp only [Cursor.toll, Cursor.Stays, Option.toList_none, List.length_nil] at *
    omega
  · cases h

theorem frugal_rulesOver : Frugal (rulesOver rules) := fun phrase c hc => by
  by_cases hp : phrase = .declaration
  · subst hp
    have hdone : ∀ s d, declaration rules c = .ok s d → d.toll ≤ c.toll := fun s d h =>
      Nat.le_of_add_right_le (frugal_declaration hr (hc rfl) h)
    refine ⟨fun d hd => Or.inr (Nat.lt_succ_of_le ?_), hdone⟩
    obtain ⟨s, hs⟩ := hd.resolve_right fun ⟨_, hfailed⟩ => declaration_ne_failed hfailed
    exact hdone s d hs
  · have hbudget : c.Within (c.toll + phrase.loan) phrase.loan c := by
      rcases Nat.eq_zero_or_pos phrase.loan with hloan | hloan
      · exact Or.inl ⟨hloan, rfl, rfl⟩
      · exact Or.inr ⟨Nat.le_refl _, Nat.lt_add_of_pos_right hloan⟩
    obtain ⟨hends, hdone⟩ := (descends_rulesOver hp c).frugal hr (Nat.le_add_right _ _) hbudget
    refine ⟨fun d hd => ?_, fun a d h => ?_⟩
    · rcases Nat.eq_zero_or_pos phrase.loan with hloan | hloan
      · exact (hends d hd).imp_left fun hstays => ⟨hloan, hstays⟩
      · refine Or.inr ((hends d hd).elim (fun hstays => ?_) id)
        simp only [Cursor.toll, Cursor.Stays] at *
        omega
    · have := hdone a d h
      omega

end Productions

theorem frugal_produce (depth : Nat) : Frugal (produce depth) := by
  induction depth with
  | zero => exact fun _ _ _ => ⟨fun _ hd => absurd rfl hd.ne_exhausted, fun _ _ hd => by cases hd⟩
  | succ depth ih => exact frugal_rulesOver ih

/-- The statements of a program come with tokens of their own. -/
theorem produce_program_toll {depth : Nat} {c d : Cursor} {statements : List Stmt}
    (h : produce depth .program c = .ok statements d) : statements.length + d.toll ≤ c.toll := by
  induction depth generalizing c statements with
  | zero => cases h
  | succ depth ih =>
    rcases program_eq_ok h with ⟨-, rfl, rfl⟩ | ⟨hne, first, mid, rest, hfirst, hrest, rfl⟩
    · simp
    · have hrest := ih hrest
      have hfirst : mid.toll + first.toList.length ≤ c.toll := by
        cases depth with
        | zero => cases hfirst
        | succ depth => exact frugal_declaration (frugal_produce depth) hne hfirst
      rw [List.length_append]
      omega

/-- A declaration that is given up leaves its error behind those noted on the way. -/
theorem produce_declaration_none {depth : Nat} {c d : Cursor} (h : produce depth .declaration c = .ok none d) :
    ∃ before error, c.errors <+: before ∧ d.errors = before ++ [error] := by
  cases depth with
  | zero => cases h
  | succ depth =>
    have h : declaration (produce depth) c = .ok none d := h
    unfold declaration at h
    split at h
    · cases h
    · next e next hd =>
      cases h
      have hkeeps : c.Precedes next := (keeps_declared (keeps_produce depth) c next).2 e hd
      exact ⟨next.errors, e, hkeeps.errors, Cursor.resume_errors _⟩
    · cases h

/-- Statements and errors together are no more than the tokens before the first end, whatever the tokens are; and a
declaration that is given up, at any nesting, leaves an error that the reading as a whole keeps. -/
theorem errors_do_not_cascade (nextId : NodeId) (tokens : List Token) :
    (parse nextId tokens).statements.length + (parse nextId tokens).errors.length ≤
      (tokens.takeWhile (!·.isFinish)).length ∧
    ∀ depth c d, (Call.reading nextId tokens).Contains ⟨depth, .declaration, c⟩ →
      produce depth .declaration c = .ok none d →
        ∃ before error, c.errors <+: before ∧ before ++ [error] <+: (parse nextId tokens).errors := by
  obtain ⟨statements, last, hproduce, hparse, hend⟩ := produce_start nextId tokens
  have hread := hproduce _ (Nat.le_refl _)
  rw [hparse]
  constructor
  · have htoll := produce_program_toll hread
    have hstart : (Cursor.start nextId tokens).toll = (tokens.takeWhile (!·.isFinish)).length := rfl
    have hlast : last.toll = last.errors.length := by rw [Cursor.toll, hend, List.length_nil, Nat.zero_add]
    rwa [hstart, hlast] at htoll
  · intro depth c d hcontains hnone
    obtain ⟨before, error, hbefore, herrors⟩ := produce_declaration_none hnone
    obtain ⟨-, e, he, hlast⟩ := hcontains.lies (Q := Cursor.Precedes) (Or.inl ⟨statements, hread⟩)
    have he : (produce depth .declaration c).Ends e := he
    rw [hnone] at he
    obtain rfl := he.eq_of_ok
    exact ⟨before, error, hbefore, herrors ▸ hlast.errors⟩

namespace Unmatched

/-- One token and one error, of the declaration that is given up at the brace. -/
theorem brace_error_kept : ∃ error, (parse 0 tokens).errors = [error] ∧ (parse 0 tokens).statements = [] := by
  obtain ⟨hcount, hgiven⟩ := errors_do_not_cascade 0 tokens
  have hbegins : (Call.reading 0 tokens).Begins ⟨31, .declaration, .start 0 tokens⟩ :=
    Call.begins_declaration (by decide) (produce_program_ne_exhausted _)
  obtain ⟨before, error, -, hkept⟩ := hgiven 31 (.start 0 tokens) _ (.within .self hbegins) rfl
  have htokens : (tokens.takeWhile (!·.isFinish)).length = 1 := by decide
  have hlength := hkept.length_le
  rw [List.length_append, List.length_singleton] at hlength
  refine ⟨error, ?_, List.eq_nil_of_length_eq_zero (by omega)⟩
  have hbefore : before = [] := List.eq_nil_of_length_eq_zero (by omega)
  subst hbefore
  exact (hkept.eq_of_length (by simp only [List.nil_append, List.length_singleton] at *; omega)).symm

end Unmatched

end Treewalk.Grammar
