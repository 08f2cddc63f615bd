import Treewalk.Proofs.Grammar.Descent
import Treewalk.Proofs.Grammar.Nesting

/-!
The calls that a reading consists of. A production is called at a position and calls others at positions in turn; each of
them ends before the next one begins, and all of them before the one that called them ends. The main statement: whatever
the tokens are, a reading comes to its end with all of them read up to the first end, no call moves back or beyond it,
and each call of a declaration moves on.
-/

namespace Treewalk.Grammar

/-- A later position: the tokens ahead are some of the last ones that were ahead, and errors and identities were only
added. -/
structure Cursor.Precedes (c d : Cursor) : Prop where
  ahead : d.ahead <:+ c.ahead
  errors : c.errors <+: d.errors
  nextId : c.nextId ≤ d.nextId

instance : Respected Cursor.Precedes where
  refl _ := ⟨List.suffix_rfl, List.prefix_rfl, Nat.le_refl _⟩
  trans h₁ h₂ := ⟨h₂.ahead.trans h₁.ahead, h₁.errors.trans h₂.errors, Nat.le_trans h₁.nextId h₂.nextId⟩
  pass h := ⟨h ▸ List.suffix_cons _ _, List.prefix_rfl, Nat.le_refl _⟩
  fresh _ := ⟨List.suffix_rfl, List.prefix_rfl, Nat.le_succ _⟩
  report _ _ := ⟨List.suffix_rfl, List.prefix_append _ _, Nat.le_refl _⟩

/-! ### What is asked in the course of a descent -/

/-- What comes of `run` depends on what comes of the phrase at the position: with another answer to that alone, something
else might come of it. -/
def Consults {α : Type} (run : Rules → Parsed α) (rules : Rules) (phrase : Phrase) (c : Cursor) : Prop :=
  ∃ others : Rules, (∀ p d, ¬(p = phrase ∧ d = c) → others p d = rules p d) ∧ run others ≠ run rules

/-- What is consulted in the course of a question and what follows it is the question itself, or is consulted behind its
answer. -/
theorem Consults.behind {α : Type} {first phrase : Phrase} {c c' : Cursor} {rest : first.Tree → Cursor → Rules → Parsed α}
    {rules : Rules} (h : Consults (fun rules => (rules first c).andThen fun a d => rest a d rules) rules phrase c')
    (hfirst : ¬(first = phrase ∧ c = c')) : ∃ a d, rules first c = .ok a d ∧ Consults (rest a d) rules phrase c' := by
  obtain ⟨others, ho, hne⟩ := h
  dsimp only at hne
  rw [ho first c hfirst] at hne
  cases hq : rules first c with
  | ok a d =>
    rw [hq] at hne
    exact ⟨a, d, rfl, others, ho, hne⟩
  | failed error d => exact absurd (by rw [hq]; rfl) hne
  | exhausted => exact absurd (by rw [hq]; rfl) hne

/-- The phrase is asked for at `c'` in the course of what leads from `c` to `e`, and its answer is used. -/
structure Consulted (Q : Cursor → Cursor → Prop) (rules : Rules) (c e : Cursor) (phrase : Phrase) (c' : Cursor) :
    Prop where
  begins : Q c c'
  before_end : phrase = .declaration → c'.ahead ≠ []
  ends : ∃ d, (rules phrase c').Ends d ∧ Q d e

namespace Descent

variable {Q : Cursor → Cursor → Prop} [Respected Q] {α : Type} {least held : Nat} {c : Cursor} {run : Rules → Parsed α}
  {rules : Rules}

/-- Productions that decide more do not decide otherwise. -/
theorem agrees {others : Rules} (ho : ∀ phrase d, rules phrase d ≠ .exhausted → others phrase d = rules phrase d)
    (h : Descent least held c run) : ∀ {e}, (run rules).Ends e → run others = run rules := by
  induction h with
  | done a h => exact fun _ => rfl
  | fail e => exact fun _ => rfl
  | move h _ ih => exact ih
  | @ask held c phrase rest h _ ih =>
    intro e he
    rcases he.andThen with ⟨a, d, hq, he⟩ | ⟨error, hq⟩
    · dsimp only
      rw [ho phrase c (by rw [hq]; nofun), hq]
      exact ih a d he
    · dsimp only
      rw [ho phrase c (by rw [hq]; nofun), hq]
      rfl

/-- What is consulted is asked for along the way. -/
theorem consulted (hr : ∀ phrase, Keeps Q (rules phrase)) {phrase : Phrase} {c' e : Cursor}
    (h : Descent least held c run) : (run rules).Ends e → Consults run rules phrase c' →
      Consulted Q rules c e phrase c' := by
  induction h with
  | done a h => exact fun _ ⟨_, _, hne⟩ => absurd rfl hne
  | fail e => exact fun _ ⟨_, _, hne⟩ => absurd rfl hne
  | move h _ ih =>
    intro he hc
    exact { ih he hc with begins := Respected.trans h.respected (ih he hc).begins }
  | @ask held c first rest h next ih =>
    intro he hc
    by_cases hfirst : first = phrase ∧ c = c'
    · obtain ⟨rfl, rfl⟩ := hfirst
      refine ⟨Respected.refl _, h.2, ?_⟩
      rcases he.andThen with ⟨a, d, hq, he⟩ | ⟨error, hq⟩
      · exact ⟨d, hq ▸ .ok, (next a d).keeps hr he⟩
      · exact ⟨e, hq ▸ .failed, Respected.refl e⟩
    · obtain ⟨a, d, hq, hc⟩ := hc.behind hfirst
      dsimp only at he
      rw [hq] at he
      have behind := ih a d he hc
      exact { behind with begins := Respected.trans ((hr first c d).1 a hq) behind.begins }

/-- What is consulted, and is not the first question, is asked for behind the answer to that. -/
theorem consulted_behind (hr : ∀ phrase, Keeps Q (rules phrase)) {first phrase : Phrase} {c' e : Cursor}
    {rest : first.Tree → Cursor → Rules → Parsed α}
    (next : ∀ a d, Descent least (held + first.least) d (rest a d))
    (he : ((rules first c).andThen fun a d => rest a d rules).Ends e)
    (hc : Consults (fun rules => (rules first c).andThen fun a d => rest a d rules) rules phrase c')
    (hfirst : ¬(first = phrase ∧ c = c')) : ∃ d, (rules first c).Ends d ∧ Q d c' := by
  obtain ⟨a, d, hq, hc⟩ := hc.behind hfirst
  rw [hq] at he
  exact ⟨d, hq ▸ .ok, ((next a d).consulted hr he hc).begins⟩

/-- Of two phrases that are consulted one ends before the other begins. -/
theorem in_turn (hr : ∀ phrase, Keeps Q (rules phrase)) {p₁ p₂ : Phrase} {c₁ c₂ e : Cursor}
    (h : Descent least held c run) : (run rules).Ends e → Consults run rules p₁ c₁ → Consults run rules p₂ c₂ →
      (p₁ = p₂ ∧ c₁ = c₂) ∨ (∃ d, (rules p₁ c₁).Ends d ∧ Q d c₂) ∨ ∃ d, (rules p₂ c₂).Ends d ∧ Q d c₁ := by
  induction h with
  | done a h => exact fun _ ⟨_, _, hne⟩ => absurd rfl hne
  | fail e => exact fun _ ⟨_, _, hne⟩ => absurd rfl hne
  | move h _ ih => exact ih
  | @ask held c first rest h next ih =>
    intro he hc₁ hc₂
    by_cases h₁ : first = p₁ ∧ c = c₁ <;> by_cases h₂ : first = p₂ ∧ c = c₂
    · exact Or.inl ⟨h₁.1 ▸ h₂.1, h₁.2 ▸ h₂.2⟩
    · obtain ⟨rfl, rfl⟩ := h₁
      exact Or.inr (Or.inl (consulted_behind hr next he hc₂ h₂))
    · obtain ⟨rfl, rfl⟩ := h₂
      exact Or.inr (Or.inr (consulted_behind hr next he hc₁ h₁))
    · obtain ⟨a, d, hq, hc₁⟩ := hc₁.behind h₁
      obtain ⟨b, d', hq', hc₂⟩ := hc₂.behind h₂
      dsimp only at he
      rw [hq] at he
      obtain ⟨rfl, rfl⟩ : a = b ∧ d = d' := by simpa [hq] using hq'
      exact ih a d he hc₁ hc₂

end Descent

/-! ### What is asked in the course of a production -/

section Productions
variable {rules others : Rules} {phrase : Phrase} {c e : Cursor}

/-- A declaration is decided where what it declares is, or behind it where that failed. -/
theorem declared_ends {Q : Cursor → Cursor → Prop} [Respected Q] (h : (declaration rules c).Ends e) :
    ∃ d, (declared rules c).Ends d ∧ Q d e := by
  unfold declaration at h
  cases hd : declared rules c with
  | ok s d =>
    rw [hd] at h
    exact ⟨d, .ok, h.eq_of_ok ▸ Respected.refl d⟩
  | failed error d =>
    rw [hd] at h
    exact ⟨d, .failed, h.eq_of_ok ▸ Respected.trans (Respected.report d error) (Respected.resume _)⟩
  | exhausted =>
    rw [hd] at h
    exact absurd rfl h.ne_exhausted

theorem declaration_congr (h : declared others c = declared rules c) : declaration others c = declaration rules c := by
  unfold declaration
  rw [h]

theorem Consults.declared {p : Phrase} {c' : Cursor} (h : Consults (fun rules => declaration rules c) rules p c') :
    Consults (fun rules => declared rules c) rules p c' := by
  obtain ⟨others, ho, hne⟩ := h
  exact ⟨others, ho, fun heq => hne (declaration_congr heq)⟩

theorem rulesOver_agrees (ho : ∀ phrase d, rules phrase d ≠ .exhausted → others phrase d = rules phrase d)
    (h : (rulesOver rules phrase c).Ends e) : rulesOver others phrase c = rulesOver rules phrase c := by
  by_cases hp : phrase = .declaration
  · subst hp
    obtain ⟨d, hd, -⟩ := declared_ends (Q := Cursor.Precedes) h
    exact declaration_congr ((descends_declared c).agrees ho hd)
  · exact (descends_rulesOver hp c).agrees ho h

variable {Q : Cursor → Cursor → Prop} [Respected Q] (hr : ∀ phrase, Keeps Q (rules phrase))
include hr

theorem rulesOver_consulted (h : (rulesOver rules phrase c).Ends e) {p : Phrase} {c' : Cursor}
    (hc : Consults (fun rules => rulesOver rules phrase c) rules p c') : Consulted Q rules c e p c' := by
  by_cases hp : phrase = .declaration
  · subst hp
    obtain ⟨d, hd, hde⟩ := declared_ends (Q := Q) h
    obtain ⟨hbegins, hend, f, hf, hfd⟩ := (descends_declared c).consulted hr hd hc.declared
    exact ⟨hbegins, hend, f, hf, Respected.trans hfd hde⟩
  · exact (descends_rulesOver hp c).consulted hr h hc

theorem rulesOver_in_turn (h : (rulesOver rules phrase c).Ends e) {p₁ p₂ : Phrase} {c₁ c₂ : Cursor}
    (h₁ : Consults (fun rules => rulesOver rules phrase c) rules p₁ c₁)
    (h₂ : Consults (fun rules => rulesOver rules phrase c) rules p₂ c₂) :
    (p₁ = p₂ ∧ c₁ = c₂) ∨ (∃ d, (rules p₁ c₁).Ends d ∧ Q d c₂) ∨ ∃ d, (rules p₂ c₂).Ends d ∧ Q d c₁ := by
  by_cases hp : phrase = .declaration
  · subst hp
    obtain ⟨d, hd, -⟩ := declared_ends (Q := Q) h
    exact (descends_declared c).in_turn hr hd h₁.declared h₂.declared
  · exact (descends_rulesOver hp c).in_turn hr h h₁ h₂

end Productions

/-- What is decided stays so with more nesting. -/
theorem produce_of_le {depth more : Nat} (hle : depth ≤ more) {phrase : Phrase} {c : Cursor}
    (h : produce depth phrase c ≠ .exhausted) : produce more phrase c = produce depth phrase c := by
  induction depth generalizing more phrase c with
  | zero => exact absurd rfl h
  | succ depth ih =>
    obtain ⟨more, rfl⟩ : ∃ n, more = n + 1 := ⟨more - 1, by omega⟩
    obtain ⟨e, he⟩ := Parsed.exists_ends h
    exact rulesOver_agrees (fun phrase d hd => ih (Nat.le_of_succ_le_succ hle) hd) he

/-! ### Calls -/

/-- A production that is begun at a position, with a bound on its nesting. -/
structure Call where
  depth : Nat
  phrase : Phrase
  cursor : Cursor

namespace Call

def outcome (call : Call) : Parsed call.phrase.Tree :=
  produce call.depth call.phrase call.cursor

/-- The second call is made by the first one. -/
inductive Begins : Call → Call → Prop where
  | intro {depth phrase c p c'} (h : Consults (fun rules => rulesOver rules phrase c) (produce depth) p c') :
      Begins ⟨depth + 1, phrase, c⟩ ⟨depth, p, c'⟩

/-- The second call is the first one, or is made in its course. -/
inductive Contains : Call → Call → Prop where
  | self {call} : Contains call call
  | within {outer call inner} : Contains outer call → Begins call inner → Contains outer inner

variable {Q : Cursor → Cursor → Prop} [Respected Q] {outer call inner : Call} {e : Cursor}

theorem keeps (h : call.outcome.Ends e) : Q call.cursor e := by
  rcases h with ⟨a, h⟩ | ⟨error, h⟩
  · exact (keeps_produce _ _ _ _).1 a h
  · exact (keeps_produce _ _ _ _).2 error h

theorem Begins.consulted (h : outer.Begins inner) (he : outer.outcome.Ends e) :
    Consulted Q (produce inner.depth) outer.cursor e inner.phrase inner.cursor := by
  cases h with
  | intro h => exact rulesOver_consulted (keeps_produce _) he h

theorem Begins.in_turn {a b : Call} (ha : outer.Begins a) (hb : outer.Begins b) (he : outer.outcome.Ends e) :
    a = b ∨ (∃ d, a.outcome.Ends d ∧ Q d b.cursor) ∨ ∃ d, b.outcome.Ends d ∧ Q d a.cursor := by
  cases ha with
  | intro ha =>
    cases hb with
    | intro hb =>
      refine (rulesOver_in_turn (keeps_produce _) he ha hb).imp_left ?_
      rintro ⟨rfl, rfl⟩
      rfl

/-- A call in the course of one that is decided is decided itself, and lies between its beginning and its end. -/
theorem Contains.lies (h : outer.Contains inner) (he : outer.outcome.Ends e) :
    Q outer.cursor inner.cursor ∧ ∃ d, inner.outcome.Ends d ∧ Q d e := by
  induction h with
  | self => exact ⟨Respected.refl _, e, he, Respected.refl e⟩
  | within _ hbegins ih =>
    obtain ⟨hbegin, d, hd, hde⟩ := ih
    obtain ⟨hinner, -, f, hf, hfd⟩ := hbegins.consulted (Q := Q) hd
    exact ⟨Respected.trans hbegin hinner, f, hf, Respected.trans hfd hde⟩

/-- No call of a declaration is made at the end. -/
theorem Contains.before_end (h : outer.Contains inner) (he : outer.outcome.Ends e) (hne : inner ≠ outer)
    (hp : inner.phrase = .declaration) : inner.cursor.ahead ≠ [] := by
  cases h with
  | self => exact absurd rfl hne
  | within h hbegins =>
    obtain ⟨-, d, hd, -⟩ := h.lies (Q := Cursor.Precedes) he
    exact (hbegins.consulted (Q := Cursor.Precedes) hd).before_end hp

end Call

/-! ### The reading of a program -/

/-- A declaration is given up where it fails, and never fails itself. -/
theorem declaration_ne_failed {rules : Rules} {c e : Cursor} {error : ParseError} :
    declaration rules c ≠ .failed error e := by
  intro h
  unfold declaration at h
  split at h <;> cases h

/-- A program is nothing at the end, and a declaration and the rest before it. -/
theorem program_eq_ok {rules : Rules} {c e : Cursor} {statements : List Stmt} (h : program rules c = .ok statements e) :
    (c.ahead = [] ∧ statements = [] ∧ e = c) ∨
      (c.ahead ≠ [] ∧ ∃ (first : Option Stmt) (d : Cursor) (rest : List Stmt), rules .declaration c = .ok first d ∧
        rules .program d = .ok rest e ∧ statements = first.toList ++ rest) := by
  obtain ⟨x, mid, hx, h⟩ := Production.bind_eq_ok.mp h
  obtain ⟨rfl, rfl⟩ := Production.look_eq_ok.mp hx
  split at h
  · next hend =>
    obtain ⟨rfl, rfl⟩ := Production.pure_eq_ok.mp h
    exact Or.inl ⟨List.isEmpty_iff.mp hend, rfl, rfl⟩
  · next hend =>
    obtain ⟨first, d, hd, h⟩ := Production.bind_eq_ok.mp h
    obtain ⟨rest, d', hd', h⟩ := Production.bind_eq_ok.mp h
    obtain ⟨rfl, rfl⟩ := Production.pure_eq_ok.mp h
    exact Or.inr ⟨fun hnil => hend (by simp [Cursor.atEnd, hnil]), first, d, rest, hd, hd', rfl⟩

/-- A program is read to the end. -/
theorem produce_program_eq_ok {depth : Nat} {c e : Cursor} {statements : List Stmt}
    (h : produce depth .program c = .ok statements e) : e.ahead = [] := by
  induction depth generalizing c statements with
  | zero => cases h
  | succ depth ih =>
    rcases program_eq_ok h with ⟨hend, -, rfl⟩ | ⟨-, first, d, rest, -, hrest, -⟩
    · exact hend
    · exact ih hrest

/-- Errors are noted, and do not end the reading of a program. -/
theorem produce_program_ne_failed {depth : Nat} {c e : Cursor} {error : ParseError} :
    produce depth .program c ≠ .failed error e := by
  induction depth generalizing c with
  | zero => nofun
  | succ depth ih =>
    intro h
    rcases Production.bind_eq_failed.mp h with h | ⟨x, mid, -, h⟩
    · cases h
    split at h
    · cases h
    rcases Production.bind_eq_failed.mp h with h | ⟨first, d, -, h⟩
    · cases depth with
      | zero => cases h
      | succ depth => exact declaration_ne_failed h
    rcases Production.bind_eq_failed.mp h with h | ⟨rest, d', -, h⟩
    · exact ih h
    · cases h

/-- The bound on the nesting decides what a list of tokens is read as, and no larger one decides otherwise. -/
theorem produce_start (nextId : NodeId) (tokens : List Token) :
    ∃ (statements : List Stmt) (last : Cursor),
      (∀ depth, nestingBound (Cursor.start nextId tokens).ahead.length ≤ depth →
        produce depth .program (.start nextId tokens) = .ok statements last) ∧
      parse nextId tokens = ⟨statements, last.errors, last.nextId⟩ ∧ last.ahead = [] := by
  have hne := produce_program_ne_exhausted (Cursor.start nextId tokens)
  cases h : produce (nestingBound (Cursor.start nextId tokens).ahead.length) .program (.start nextId tokens) with
  | ok statements last =>
    refine ⟨statements, last, fun depth hle => (produce_of_le hle hne).trans h, ?_, produce_program_eq_ok h⟩
    unfold parse
    simp only [h]
  | failed error last => exact absurd h produce_program_ne_failed
  | exhausted => exact absurd h hne

/-! ### Positions in a list of tokens -/

namespace Cursor

variable {tokens : List Token} {c d : Cursor}

/-- The number of tokens that are read at a position in the list. -/
def index (tokens : List Token) (c : Cursor) : Nat :=
  (tokens.takeWhile (!·.isFinish)).length - c.ahead.length

/-- The position is one in the list, not behind the first end: the tokens that are read and those ahead are the ones
before it. -/
def LiesOn (tokens : List Token) (c : Cursor) : Prop :=
  tokens.take (c.index tokens) ++ c.ahead = tokens.takeWhile (!·.isFinish)

theorem liesOn_of_suffix (h : c.ahead <:+ tokens.takeWhile (!·.isFinish)) : c.LiesOn tokens := by
  obtain ⟨read, hread⟩ := h
  have hindex : c.index tokens = read.length := by
    rw [index, ← hread, List.length_append, Nat.add_sub_cancel]
  have htokens : tokens = read ++ (c.ahead ++ tokens.dropWhile (!·.isFinish)) := by
    rw [← List.append_assoc, hread, List.takeWhile_append_dropWhile]
  rw [LiesOn, hindex, htokens, List.take_left, ← htokens, hread]

theorem index_le (h : c.Precedes d) : c.index tokens ≤ d.index tokens :=
  Nat.sub_le_sub_left h.ahead.length_le _

theorem index_lt (h : c.ahead <:+ tokens.takeWhile (!·.isFinish)) (hlt : d.ahead.length < c.ahead.length) :
    c.index tokens < d.index tokens := by
  have := h.length_le
  unfold index
  omega

end Cursor

/-- The call comes to its end at `d`. Both of its ends lie on the tokens, and it does not move back; a declaration moves
on, whether it is kept or given up. The calls it makes lie between its ends, one behind the other. -/
structure Call.Orderly (tokens : List Token) (call : Call) (d : Cursor) : Prop where
  ends : call.outcome.Ends d
  begins_on : call.cursor.LiesOn tokens
  ends_on : d.LiesOn tokens
  onward : call.cursor.index tokens ≤ d.index tokens
  moves_on : call.phrase = .declaration → call.cursor.index tokens < d.index tokens ∧ ∃ s, call.outcome = .ok s d
  within : ∀ inner, call.Begins inner → call.cursor.index tokens ≤ inner.cursor.index tokens ∧
    ∃ e, inner.outcome.Ends e ∧ e.index tokens ≤ d.index tokens
  in_turn : ∀ a b, call.Begins a → call.Begins b → a = b ∨
    (∃ e, a.outcome.Ends e ∧ e.index tokens ≤ b.cursor.index tokens) ∨
    ∃ e, b.outcome.Ends e ∧ e.index tokens ≤ a.cursor.index tokens

namespace Call

/-- The reading of a list of tokens as a program, with a bound on the nesting that suffices for it. -/
def reading (nextId : NodeId) (tokens : List Token) : Call :=
  ⟨nestingBound (Cursor.start nextId tokens).ahead.length, .program, .start nextId tokens⟩

/-- Every call in the course of a reading is orderly. -/
theorem Contains.orderly {nextId : NodeId} {tokens : List Token} {call : Call} {last : Cursor}
    (h : (reading nextId tokens).Contains call) (hlast : (reading nextId tokens).outcome.Ends last) :
    ∃ d, call.Orderly tokens d := by
  obtain ⟨hbegin, d, hd, -⟩ := h.lies (Q := Cursor.Precedes) hlast
  have hcd : call.cursor.Precedes d := call.keeps hd
  refine ⟨d, hd, Cursor.liesOn_of_suffix hbegin.ahead, Cursor.liesOn_of_suffix (hcd.ahead.trans hbegin.ahead),
    Cursor.index_le hcd, fun hp => ?_, fun inner hinner => ?_, fun a b ha hb => ?_⟩
  · have hne : call.cursor.ahead ≠ [] := h.before_end hlast (fun he => by rw [he] at hp; cases hp) hp
    obtain ⟨depth, phrase, c⟩ := call
    subst hp
    cases depth with
    | zero => exact absurd rfl hd.ne_exhausted
    | succ depth =>
      obtain ⟨s, hs⟩ : ∃ s, produce (depth + 1) .declaration c = .ok s d :=
        hd.resolve_right fun ⟨_, hfailed⟩ => declaration_ne_failed hfailed
      exact ⟨Cursor.index_lt hbegin.ahead (produce_declaration_consumes hne hs), s, hs⟩
  · obtain ⟨hbefore, -, e, he, hafter⟩ := hinner.consulted (Q := Cursor.Precedes) hd
    exact ⟨Cursor.index_le hbefore, e, he, Cursor.index_le hafter⟩
  · rcases ha.in_turn (Q := Cursor.Precedes) hb hd with hab | ⟨e, he, hafter⟩ | ⟨e, he, hafter⟩
    · exact Or.inl hab
    · exact Or.inr (Or.inl ⟨e, he, Cursor.index_le hafter⟩)
    · exact Or.inr (Or.inr ⟨e, he, Cursor.index_le hafter⟩)

end Call

/-- Whatever the tokens are, reading them comes to an end: it gives the same statements with any nesting that is allowed
from the bound on, with all tokens before the first end read. Each call on the way is orderly: it comes to an end without
moving back or beyond the first end, and each declaration moves on. -/
theorem parse_ends_and_every_call_is_orderly (nextId : NodeId) (tokens : List Token) :
    ∃ (statements : List Stmt) (last : Cursor),
      (∀ depth, nestingBound (tokens.takeWhile (!·.isFinish)).length ≤ depth →
        produce depth .program (.start nextId tokens) = .ok statements last) ∧
      parse nextId tokens = ⟨statements, last.errors, last.nextId⟩ ∧
      last.index tokens = (tokens.takeWhile (!·.isFinish)).length ∧
      ∀ call, (Call.reading nextId tokens).Contains call → ∃ d, call.Orderly tokens d := by
  obtain ⟨statements, last, hproduce, hparse, hend⟩ := produce_start nextId tokens
  refine ⟨statements, last, hproduce, hparse, by simp [Cursor.index, hend], fun call h => ?_⟩
  exact h.orderly (Or.inl ⟨statements, hproduce _ (Nat.le_refl _)⟩)

/-- A phrase is consulted if nothing is decided without an answer to it. -/
theorem consults_of_exhausted {α : Type} {run : Rules → Parsed α} {rules : Rules} {phrase : Phrase} {c : Cursor}
    (h : run rules ≠ .exhausted) (hrun : ∀ others : Rules, others phrase c = .exhausted → run others = .exhausted) :
    Consults run rules phrase c := by
  classical
  let others : Rules := fun p d => if p = phrase ∧ d = c then .exhausted else rules p d
  have hothers : others phrase c = .exhausted := if_pos ⟨rfl, rfl⟩
  exact ⟨others, fun p d hpd => if_neg hpd, hrun others hothers ▸ h.symm⟩

/-- Before the end, the reading of a program begins with a declaration. -/
theorem Call.begins_declaration {depth : Nat} {c : Cursor} (hne : c.ahead ≠ [])
    (h : produce (depth + 1) .program c ≠ .exhausted) :
    Call.Begins ⟨depth + 1, .program, c⟩ ⟨depth, .declaration, c⟩ := by
  refine ⟨consults_of_exhausted h fun others hq => ?_⟩
  refine Production.bind_eq_exhausted.mpr (Or.inr ⟨c.atEnd, c, rfl, ?_⟩)
  rw [if_neg (by simpa [Cursor.atEnd] using hne)]
  exact Production.bind_eq_exhausted.mpr (Or.inl hq)

namespace Unmatched

/-- A closing brace with nothing to close, an end, and a token behind the end. -/
def tokens : List Token :=
  [⟨.symbol .rightBrace, "\x7d", 1, 0⟩, ⟨.finish, "", 1, 1⟩, ⟨.symbol .semicolon, ";", 1, 2⟩]

/-- The brace is given up, and the reading of the declaration that it stands for moves on to the end. -/
theorem declaration_moves_on : ∃ d, (Call.mk 31 .declaration (.start 0 tokens)).Orderly tokens d ∧ d.index tokens = 1 := by
  obtain ⟨statements, last, -, -, -, horderly⟩ := parse_ends_and_every_call_is_orderly 0 tokens
  have hbegins : (Call.reading 0 tokens).Begins ⟨31, .declaration, .start 0 tokens⟩ :=
    Call.begins_declaration (by decide) (produce_program_ne_exhausted _)
  obtain ⟨d, hd⟩ := horderly _ (.within .self hbegins)
  refine ⟨d, hd, ?_⟩
  have hlt : 0 < d.index tokens := (hd.moves_on rfl).1
  have hle : d.index tokens ≤ 1 := Nat.sub_le _ _
  omega

end Unmatched

end Treewalk.Grammar
