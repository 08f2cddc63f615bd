import Treewalk.Grammar.Parse
import Treewalk.Proofs.Grammar.Derivation

/-!
How productions move a cursor. Each elementary production is inverted once: what it says about the position it started
from, and where it ends. Whatever relation between positions the elementary moves respect, the elementary productions
and their sequences respect, also where they fail.
-/

namespace Treewalk.Grammar

namespace Production

variable {α β : Type} {c d : Cursor}

/-! ### Sequences -/

theorem bind_eq_ok {p : Production α} {f : α → Production β} {b : β} :
    (p >>= f) c = .ok b d ↔ ∃ a mid, p c = .ok a mid ∧ f a mid = .ok b d := by
  show Production.bind p f c = _ ↔ _
  unfold Production.bind
  cases h : p c <;> simp [and_assoc]

theorem bind_eq_failed {p : Production α} {f : α → Production β} {e : ParseError} :
    (p >>= f) c = .failed e d ↔ p c = .failed e d ∨ ∃ a mid, p c = .ok a mid ∧ f a mid = .failed e d := by
  show Production.bind p f c = _ ↔ _
  unfold Production.bind
  cases h : p c <;> simp [and_assoc]

theorem bind_eq_exhausted {p : Production α} {f : α → Production β} :
    (p >>= f) c = .exhausted ↔ p c = .exhausted ∨ ∃ a mid, p c = .ok a mid ∧ f a mid = .exhausted := by
  show Production.bind p f c = _ ↔ _
  unfold Production.bind
  cases h : p c <;> simp [and_assoc]

theorem pure_eq_ok {a b : α} : (pure a : Production α) c = .ok b d ↔ a = b ∧ c = d := by
  show Parsed.ok a c = _ ↔ _
  simp

theorem discard_eq_bind {p : Production α} : discard p = p >>= fun _ => pure () := rfl

theorem discard_eq_ok {p : Production α} : discard p c = .ok () d ↔ ∃ a, p c = .ok a d := by
  rw [discard_eq_bind, bind_eq_ok]
  constructor
  · rintro ⟨a, mid, hp, h⟩
    obtain ⟨-, rfl⟩ := pure_eq_ok.mp h
    exact ⟨a, hp⟩
  · rintro ⟨a, hp⟩
    exact ⟨a, d, hp, rfl⟩

end Production

namespace Cursor

/-- The position behind the next token, if there is one. -/
def pass (c : Cursor) (t : Token) (rest : List Token) : Cursor :=
  { c with ahead := rest, last := t }

@[simp] theorem pass_ahead (c : Cursor) (t : Token) (rest : List Token) : (c.pass t rest).ahead = rest := rfl

@[simp] theorem pass_last (c : Cursor) (t : Token) (rest : List Token) : (c.pass t rest).last = t := rfl

@[simp] theorem pass_nextId (c : Cursor) (t : Token) (rest : List Token) : (c.pass t rest).nextId = c.nextId := rfl

@[simp] theorem pass_errors (c : Cursor) (t : Token) (rest : List Token) : (c.pass t rest).errors = c.errors := rfl

theorem advance_of_ahead {c : Cursor} {t : Token} {rest : List Token} (h : c.ahead = t :: rest) :
    c.advance = c.pass t rest := by
  unfold advance pass
  rw [h]

theorem advance_of_atEnd {c : Cursor} (h : c.ahead = []) : c.advance = c := by
  unfold advance
  rw [h]

theorem check_of_ahead {c : Cursor} {t : Token} {rest : List Token} (h : c.ahead = t :: rest) (p : Token → Bool) :
    c.check p = p t := by
  simp [check, h]

theorem check_eq_true {c : Cursor} {p : Token → Bool} :
    c.check p = true ↔ ∃ t rest, c.ahead = t :: rest ∧ p t := by
  cases h : c.ahead with
  | nil => simp [check, h]
  | cons t rest => simp [check, h]

theorem check_eq_false {c : Cursor} {p : Token → Bool} :
    c.check p = false ↔ ∀ t rest, c.ahead = t :: rest → ¬p t := by
  cases h : c.ahead with
  | nil => simp [check, h]
  | cons t rest => simp [check, h]

end Cursor

namespace Production

variable {c d : Cursor}

/-! ### Elementary productions -/

theorem acceptIf_eq_ok {p : Token → Bool} {x : Option Token} (h : acceptIf p c = .ok x d) :
    (∃ t rest, x = some t ∧ c.ahead = t :: rest ∧ p t ∧ d = c.pass t rest) ∨
      (x = none ∧ d = c ∧ ∀ t rest, c.ahead = t :: rest → ¬p t) := by
  unfold acceptIf at h
  cases hc : c.check p with
  | true =>
    obtain ⟨t, rest, ha, hp⟩ := Cursor.check_eq_true.mp hc
    rw [hc, Cursor.advance_of_ahead ha] at h
    simp only [if_true, Parsed.ok.injEq] at h
    obtain ⟨rfl, rfl⟩ := h
    exact Or.inl ⟨t, rest, rfl, ha, hp, rfl⟩
  | false =>
    rw [hc] at h
    simp only [Bool.false_eq_true, if_false, Parsed.ok.injEq] at h
    obtain ⟨rfl, rfl⟩ := h
    exact Or.inr ⟨rfl, rfl, Cursor.check_eq_false.mp hc⟩

theorem expectIf_eq_ok {p : Token → Bool} {what : Expected} {t : Token} (h : expectIf p what c = .ok t d) :
    ∃ rest, c.ahead = t :: rest ∧ p t ∧ d = c.pass t rest := by
  unfold expectIf at h
  cases hc : c.check p with
  | true =>
    obtain ⟨t, rest, ha, hp⟩ := Cursor.check_eq_true.mp hc
    rw [hc, Cursor.advance_of_ahead ha] at h
    simp only [if_true, Parsed.ok.injEq] at h
    obtain ⟨rfl, rfl⟩ := h
    exact ⟨rest, ha, hp, rfl⟩
  | false =>
    rw [hc] at h
    simp at h

theorem expect_eq_ok {s : Symbol} {what : Expected} {t : Token} (h : expect s what c = .ok t d) :
    ∃ rest, c.ahead = t :: rest ∧ t.is s ∧ d = c.pass t rest :=
  expectIf_eq_ok h

theorem discard_expect_eq_ok {s : Symbol} {what : Expected} (h : discard (expect s what) c = .ok () d) :
    ∃ t rest, c.ahead = t :: rest ∧ t.is s ∧ d = c.pass t rest := by
  obtain ⟨t, h⟩ := discard_eq_ok.mp h
  exact ⟨t, expect_eq_ok h⟩

theorem look_eq_ok {α : Type} {f : Cursor → α} {a : α} : look f c = .ok a d ↔ f c = a ∧ c = d := by
  show Parsed.ok (f c) c = _ ↔ _
  simp

theorem fresh_eq_ok {i : NodeId} : fresh c = .ok i d ↔ c.nextId = i ∧ { c with nextId := c.nextId + 1 } = d := by
  show Parsed.ok c.nextId { c with nextId := c.nextId + 1 } = _ ↔ _
  simp

end Production

theorem isLiteral_eq (t : Token) : isLiteral t = (literal? t).isSome := by
  unfold isLiteral literal?
  cases t.kind with
  | symbol s => cases s <;> rfl
  | _ => rfl

/-- A constant is the next token; at the end, it is the one that was read last. -/
theorem literalValue_apply (c : Cursor) : literalValue c =
    match literal? c.advance.last with
    | some value => .ok value c.advance
    | none => .failed ⟨c.advance.last, .expected .literal⟩ c.advance := by
  have hadvance (f : Token → Production Literal) : (Production.advance >>= f) c = f c.advance.last c.advance := rfl
  unfold literalValue literal?
  rw [hadvance]
  cases c.advance.last.kind with
  | symbol s => cases s <;> rfl
  | _ => rfl

theorem literalValue_eq_ok {c d : Cursor} {value : Literal} (h : literalValue c = .ok value d) :
    literal? c.advance.last = some value ∧ d = c.advance := by
  rw [literalValue_apply] at h
  split at h
  · next hv =>
    cases h
    exact ⟨hv, rfl⟩
  · cases h

/-! ### What the elementary productions respect -/

/-- A relation between positions that holds along every elementary move: reading a token, taking an identity, noting an
error. -/
class Respected (Q : Cursor → Cursor → Prop) : Prop where
  refl : ∀ c, Q c c
  trans : ∀ {c d e}, Q c d → Q d e → Q c e
  pass : ∀ {c : Cursor} {t rest}, c.ahead = t :: rest → Q c (c.pass t rest)
  fresh : ∀ c : Cursor, Q c { c with nextId := c.nextId + 1 }
  report : ∀ (c : Cursor) e, Q c (c.report e)

/-- The production leads from each position to one that is related to it, whether it succeeds or fails. -/
def Keeps {α : Type} (Q : Cursor → Cursor → Prop) (p : Production α) : Prop :=
  ∀ c d, (∀ a, p c = .ok a d → Q c d) ∧ ∀ e, p c = .failed e d → Q c d

namespace Respected

variable {Q : Cursor → Cursor → Prop} [Respected Q]

theorem advance (c : Cursor) : Q c c.advance := by
  cases h : c.ahead with
  | nil => rw [Cursor.advance_of_atEnd h]; exact refl c
  | cons t rest => rw [Cursor.advance_of_ahead h]; exact pass h

/-- Skipping is reading tokens one by one. -/
theorem skip (c : Cursor) : ∀ (tokens : List Token) (last : Token),
    Q { c with last, ahead := tokens }
      { c with last := (Cursor.skip last tokens).1, ahead := (Cursor.skip last tokens).2 }
  | [], _ => refl _
  | t :: rest, last => by
    unfold Cursor.skip
    split
    · exact refl _
    · exact trans (pass (c := { c with last, ahead := t :: rest }) rfl) (skip c rest t)

theorem resume (c : Cursor) : Q c c.resume :=
  trans (advance c) (skip c.advance c.advance.ahead c.advance.last)

end Respected

namespace Keeps

variable {Q : Cursor → Cursor → Prop} [Respected Q] {α β : Type}

theorem pure (a : α) : Keeps Q (Pure.pure a : Production α) := fun c d =>
  ⟨fun b h => by obtain ⟨-, rfl⟩ := Production.pure_eq_ok.mp h; exact Respected.refl c, fun e h => by cases h⟩

theorem bind {p : Production α} {f : α → Production β} (hp : Keeps Q p) (hf : ∀ a, Keeps Q (f a)) :
    Keeps Q (p >>= f) := fun c d => by
  constructor
  · intro b h
    obtain ⟨a, mid, h₁, h₂⟩ := Production.bind_eq_ok.mp h
    exact Respected.trans ((hp c mid).1 a h₁) ((hf a mid d).1 b h₂)
  · intro e h
    rcases Production.bind_eq_failed.mp h with h₁ | ⟨a, mid, h₁, h₂⟩
    · exact (hp c d).2 e h₁
    · exact Respected.trans ((hp c mid).1 a h₁) ((hf a mid d).2 e h₂)

theorem discard {p : Production α} (hp : Keeps Q p) : Keeps Q (Functor.discard p) := hp.bind fun _ => pure _

theorem look (f : Cursor → α) : Keeps Q (Production.look f) := fun c d =>
  ⟨fun a h => by obtain ⟨-, rfl⟩ := Production.look_eq_ok.mp h; exact Respected.refl c, fun e h => by cases h⟩

theorem ahead (s : Symbol) : Keeps Q (Production.ahead s) := look _

theorem report (t : Token) (fault : ParseFault) : Keeps Q (Production.report t fault) := fun c d =>
  ⟨fun a h => by cases h; exact Respected.report c _, fun e h => by cases h⟩

theorem fresh : Keeps Q Production.fresh := fun c d =>
  ⟨fun a h => by cases h; exact Respected.fresh c, fun e h => by cases h⟩

theorem advance : Keeps Q Production.advance := fun c d =>
  ⟨fun a h => by cases h; exact Respected.advance c, fun e h => by cases h⟩

theorem acceptIf (p : Token → Bool) : Keeps Q (Production.acceptIf p) := fun c d => by
  constructor
  · intro x h
    rcases Production.acceptIf_eq_ok h with ⟨t, rest, -, ha, -, rfl⟩ | ⟨-, rfl, -⟩
    · exact Respected.pass ha
    · exact Respected.refl d
  · intro e h
    unfold Production.acceptIf at h
    split at h <;> cases h

theorem accept (s : Symbol) : Keeps Q (Production.accept s) := acceptIf _

theorem acceptAny (symbols : List Symbol) : Keeps Q (Production.acceptAny symbols) := acceptIf _

theorem expectIf (p : Token → Bool) (what : Expected) : Keeps Q (Production.expectIf p what) := fun c d => by
  constructor
  · intro t h
    obtain ⟨rest, ha, -, rfl⟩ := Production.expectIf_eq_ok h
    exact Respected.pass ha
  · intro e h
    unfold Production.expectIf at h
    split at h
    · cases h
    · cases h
      exact Respected.refl c

theorem expect (s : Symbol) (what : Expected) : Keeps Q (Production.expect s what) := expectIf _ what

theorem expectName (what : Expected) : Keeps Q (Production.expectName what) := expectIf _ what

end Keeps

end Treewalk.Grammar
