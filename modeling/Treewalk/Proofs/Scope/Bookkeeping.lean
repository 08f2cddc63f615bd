import Treewalk.Proofs.Grammar.Naming
import Treewalk.Proofs.Scope.Visits
import Treewalk.Proofs.Tree.Outline

/-!
What the check of a program keeps of its names: those of the open scopes, each with a mark once something has referred to
it, and the names that it has advised about so far. Of all that is in a program, the check books only the events of its
outline, and at each reference it finds the name that the outline links it to. The receiver, which every scope around
methods has, is left out of the books: nobody is ever advised about it.
-/

namespace Treewalk

/-- The names of a scope, each with whether something has referred to it. -/
abbrev Sheet := List (Token × Bool)

/-- The books of a check: the names of the open scopes, the innermost first, and those that were advised about. -/
structure Ledger where
  sheets : List Sheet
  advice : List Token

namespace Sheet

def declare (sheet : Sheet) (token : Token) : Sheet :=
  if sheet.any (·.1.lexeme == token.lexeme) then sheet else sheet ++ [(token, false)]

/-- Marks the name. -/
def use (sheet : Sheet) (name : String) : Sheet :=
  sheet.map fun x => if x.1.lexeme == name then (x.1, true) else x

/-- The names without a mark, in the order of the source. -/
def unused (sheet : Sheet) : List Token :=
  sortBy Scope.before ((sheet.filter fun x => !x.2 && !Scope.isDiscard x.1.lexeme).map (·.1))

/-- Marks the name in the innermost scope that has it. -/
def useFirst (name : String) : List Sheet → List Sheet
  | [] => []
  | sheet :: outer => if sheet.any (·.1.lexeme == name) then sheet.use name :: outer else sheet :: useFirst name outer

/-- Declares the name in the innermost scope. -/
def declareFirst (token : Token) : List Sheet → List Sheet
  | [] => []
  | sheet :: outer => sheet.declare token :: outer

end Sheet

namespace Ledger

def close (l : Ledger) : Ledger :=
  match l.sheets with
  | [] => l
  | sheet :: outer => ⟨outer, l.advice ++ sheet.unused⟩

end Ledger

namespace Event

mutual

/-- Books an event. -/
def book : Event → Ledger → Ledger
  | .declare token, l => { l with sheets := Sheet.declareFirst token l.sheets }
  | .refer x, l => { l with sheets := Sheet.useFirst x.token.lexeme l.sheets }
  | .scope events, l => (bookAll events { l with sheets := [] :: l.sheets }).close

def bookAll : List Event → Ledger → Ledger
  | [], l => l
  | e :: rest, l => bookAll rest (e.book l)

end

theorem bookAll_append (a b : List Event) (l : Ledger) : bookAll (a ++ b) l = bookAll b (bookAll a l) := by
  induction a generalizing l with
  | nil => rfl
  | cons e rest ih => exact ih (e.book l)

end Event

/-! ### The names in the books -/

/-- The names of the sheets, without their marks. -/
def Ledger.env (l : Ledger) : Environment := l.sheets.map (·.map (·.1))

theorem Sheet.map_use (sheet : Sheet) (name : String) : (sheet.use name).map (·.1) = sheet.map (·.1) := by
  rw [use, List.map_map]
  refine List.map_congr_left fun x _ => ?_
  rw [Function.comp]
  split <;> rfl

theorem Sheet.map_useFirst (name : String) (sheets : List Sheet) :
    (useFirst name sheets).map (·.map (·.1)) = sheets.map (·.map (·.1)) := by
  induction sheets with
  | nil => rfl
  | cons sheet outer ih =>
    rw [useFirst]
    split
    · rw [List.map_cons, Sheet.map_use, List.map_cons]
    · rw [List.map_cons, ih, List.map_cons]

theorem Sheet.map_declareFirst (token : Token) (sheets : List Sheet) :
    (declareFirst token sheets).map (·.map (·.1)) = Environment.declare (sheets.map (·.map (·.1))) token := by
  cases sheets with
  | nil => rfl
  | cons sheet outer =>
    simp only [declareFirst, declare, List.map_cons, Environment.declare, addName, List.any_map]
    split <;> simp_all [Function.comp_def]

mutual

theorem Event.env_book : (e : Event) → (l : Ledger) → (e.book l).env = e.after l.env
  | .declare token, l => Sheet.map_declareFirst token l.sheets
  | .refer x, l => Sheet.map_useFirst x.token.lexeme l.sheets
  | .scope events, l => by
    have henv := Event.env_bookAll events { l with sheets := [] :: l.sheets }
    rw [show Ledger.env { l with sheets := [] :: l.sheets } = [] :: l.env from rfl, Event.foldl_after] at henv
    rw [Event.book, Ledger.close]
    cases hsheets : (bookAll events { l with sheets := [] :: l.sheets }).sheets with
    | nil => simp [Ledger.env, hsheets] at henv
    | cons sheet outer =>
      rw [Ledger.env, hsheets, List.map_cons] at henv
      exact (List.cons.inj henv).2

theorem Event.env_bookAll : (events : List Event) → (l : Ledger) → (bookAll events l).env = events.foldl after l.env
  | [], _ => rfl
  | e :: rest, l => by rw [bookAll, Event.env_bookAll rest, Event.env_book e, List.foldl_cons]

end

/-! ### The books of the check -/

/-- The token that a finding advises about. -/
def Finding.advised? : Finding → Option Token
  | .unused token => some token
  | .fault _ _ => none

namespace Scope

/-- The names of the scope but for the receiver. -/
def sheet (scope : Scope) : Sheet :=
  (scope.filter (·.token.lexeme != receiverName)).map fun x => (x.token, x.used)

/-- The receiver counts as referred to. -/
def Seated (scope : Scope) : Prop := ∀ x ∈ scope, x.token.lexeme = receiverName → x.used = true

theorem any_sheet {scope : Scope} {name : String} (hname : name ≠ receiverName) :
    scope.sheet.any (·.1.lexeme == name) = (scope.find? name).isSome := by
  rw [Resolver.find?_isSome, Bool.eq_iff_iff, List.any_eq_true, decide_eq_true_eq, List.mem_map]
  constructor
  · rintro ⟨x, hx, hlexeme⟩
    obtain ⟨y, hy, rfl⟩ := List.mem_map.mp hx
    exact ⟨y, (List.mem_filter.mp hy).1, beq_iff_eq.mp hlexeme⟩
  · rintro ⟨y, hy, rfl⟩
    exact ⟨_, List.mem_map_of_mem (List.mem_filter.mpr ⟨hy, bne_iff_ne.mpr hname⟩), beq_self_eq_true _⟩

theorem sheet_modify (scope : Scope) (name : String) (f : LocalName → LocalName) (hf : ∀ x, (f x).token = x.token) :
    (scope.modify name f).sheet =
      (scope.filter (·.token.lexeme != receiverName)).map fun x =>
        if x.token.lexeme == name then ((f x).token, (f x).used) else (x.token, x.used) := by
  unfold sheet modify
  rw [List.filter_map, List.map_map]
  have hpred : ((fun x : LocalName => x.token.lexeme != receiverName) ∘
      fun x => if x.token.lexeme == name then f x else x) = fun x => x.token.lexeme != receiverName := by
    funext x
    simp only [Function.comp]
    split
    · rw [hf]
    · rfl
  rw [hpred]
  refine List.map_congr_left fun x _ => ?_
  simp only [Function.comp]
  split <;> rfl

theorem sheet_define (scope : Scope) (name : String) : (scope.define name).sheet = scope.sheet := by
  have hsheet := sheet_modify scope name (fun x => { x with defined := true }) fun _ => rfl
  refine hsheet.trans (List.map_congr_left fun x _ => ?_)
  split <;> rfl

theorem sheet_use (scope : Scope) (name : String) : (scope.use name).sheet = scope.sheet.use name := by
  have hsheet := sheet_modify scope name (fun x => { x with used := true }) fun _ => rfl
  refine hsheet.trans ?_
  rw [Sheet.use, sheet, List.map_map]
  rfl

theorem sheet_use_receiver (scope : Scope) : (scope.use receiverName).sheet = scope.sheet := by
  have hsheet := sheet_modify scope receiverName (fun x => { x with used := true }) fun _ => rfl
  refine hsheet.trans (List.map_congr_left fun x hx => ?_)
  have hne := (List.mem_filter.mp hx).2
  rw [if_neg (by simpa using hne)]

theorem unused_sheet {scope : Scope} (h : scope.Seated) : scope.unused = scope.sheet.unused := by
  unfold unused Sheet.unused sheet
  rw [List.filter_map, List.map_map, List.filter_filter]
  congr 2
  refine List.filter_congr fun x hx => ?_
  by_cases hname : x.token.lexeme = receiverName
  · simp [h x hx hname]
  · simp [hname]

theorem Seated.modify {scope : Scope} (h : scope.Seated) {name : String} {f : LocalName → LocalName}
    (hf : ∀ x, (f x).token = x.token ∧ (x.used → (f x).used)) : (scope.modify name f).Seated := by
  intro x hx hname
  obtain ⟨y, hy, rfl⟩ := List.mem_map.mp hx
  split at hname
  · next heq =>
    rw [if_pos heq]
    exact (hf y).2 (h y hy ((hf y).1 ▸ hname))
  · next heq =>
    rw [if_neg heq]
    exact h y hy hname

end Scope

/-- What the check finds at a visit, unless that is the receiver or global. -/
def Visit.link? (v : Visit) : Option (Reference × Token) :=
  if v.reference.kind = .this then none
  else (v.scopes.findSome? (·.find? v.name)).map fun entry => (v.reference, entry.token)

namespace Resolver

/-- The books of the check. -/
def ledger (r : Resolver) : Ledger := ⟨r.scopes.map Scope.sheet, r.findings.filterMap Finding.advised?⟩

/-- In all open scopes the receiver counts as referred to. -/
def Seated (r : Resolver) : Prop := ∀ scope ∈ r.scopes, scope.Seated

/-- What a name means is the entry that the nearest scope has of it. -/
theorem target?_env (r : Resolver) {token : Token} (ht : token.NotReceiver) :
    r.ledger.env.target? token.lexeme = (r.scopes.findSome? (·.find? token.lexeme)).map (·.token) := by
  have hscope : ∀ scope : Scope, (scope.sheet.map (·.1)).find? (·.lexeme == token.lexeme) =
      (scope.find? token.lexeme).map (·.token) := by
    intro scope
    rw [Scope.sheet, List.map_map, List.find?_map, List.find?_filter]
    refine congrArg (fun p => (List.find? p scope).map (·.token)) (funext fun x => ?_)
    by_cases hname : x.token.lexeme = token.lexeme
    · simp [hname, show token.lexeme ≠ receiverName from ht]
    · simp [hname]
  have henv : r.ledger.env = r.scopes.map fun scope => scope.sheet.map (·.1) := by
    rw [Ledger.env, ledger, List.map_map]
    rfl
  rw [henv, Environment.target?, List.findSome?_map]
  induction r.scopes with
  | nil => rfl
  | cons scope outer ih =>
    simp only [List.findSome?_cons, Function.comp, hscope]
    cases scope.find? token.lexeme with
    | none => exact ih
    | some x => rfl

/-- From the first state to the second one the check has booked the events, and has found what they are linked to at its
visits. -/
def Books (r : Resolver) (events : List Event) (visits : List Visit) (r' : Resolver) : Prop :=
  r.Seated → r'.Seated ∧ r'.ledger = Event.bookAll events r.ledger ∧
    visits.filterMap Visit.link? = Event.allLinks events r.ledger.env

namespace Books

variable {r r' r'' : Resolver} {a b : List Event} {vs ws : List Visit}

theorem trans (h : r.Books a vs r') (h' : r'.Books b ws r'') : r.Books (a ++ b) (vs ++ ws) r'' := fun hr => by
  obtain ⟨hr', heq, hlinks⟩ := h hr
  obtain ⟨hr'', heq', hlinks'⟩ := h' hr'
  refine ⟨hr'', by rw [heq', heq, Event.bookAll_append], ?_⟩
  rw [List.filterMap_append, hlinks, hlinks', heq, Event.env_bookAll, Event.allLinks_append]

/-- Nothing is booked. -/
theorem of_eq (hscopes : r'.scopes = r.scopes)
    (hfindings : r'.findings.filterMap Finding.advised? = r.findings.filterMap Finding.advised?) : r.Books [] [] r' := by
  intro hr
  refine ⟨fun scope hscope => hr scope (hscopes ▸ hscope), ?_, rfl⟩
  simp only [ledger, hscopes, hfindings, Event.bookAll]

theorem refl (r : Resolver) : r.Books [] [] r := of_eq rfl rfl

/-- What is not in the books may change on the way in and out. -/
theorem within {start finish : Resolver} (h : start.Books a vs finish) (hscopes : start.scopes = r.scopes)
    (hfindings : start.findings = r.findings) (hscopes' : r'.scopes = finish.scopes)
    (hfindings' : r'.findings = finish.findings) : r.Books a vs r' := by
  have hin : r.Books [] [] start := of_eq hscopes (by rw [hfindings])
  have hout : finish.Books [] [] r' := of_eq hscopes' (by rw [hfindings'])
  have hall := (hin.trans h).trans hout
  rw [List.append_nil, List.append_nil] at hall
  exact hall

theorem refuse (r : Resolver) (token : Token) (fault : ScopeFault) : r.Books [] [] (r.refuse token fault) := by
  refine of_eq rfl ?_
  show (r.findings ++ [Finding.fault token fault]).filterMap Finding.advised? = _
  rw [List.filterMap_append]
  exact List.append_nil _

/-- Visits of the receiver find nothing that is booked. -/
theorem visiting (h : r.Books a [] r') (hvs : vs.filterMap Visit.link? = []) : r.Books a vs r' := fun hr => by
  obtain ⟨hr', heq, hlinks⟩ := h hr
  exact ⟨hr', heq, hvs.trans hlinks⟩

theorem checkRead (r : Resolver) (token : Token) : r.Books [] [] (r.checkRead token) := by
  unfold Resolver.checkRead
  split
  · exact refuse r _ _
  · exact refl r

theorem define (r : Resolver) (token : Token) : r.Books [] [] (r.define token) := by
  unfold Resolver.define
  cases hscopes : r.scopes with
  | nil => exact refl r
  | cons scope outer =>
    intro hr
    rw [Seated, hscopes, List.forall_mem_cons] at hr
    refine ⟨List.forall_mem_cons.mpr ⟨hr.1.modify fun _ => ⟨rfl, id⟩, hr.2⟩, ?_, rfl⟩
    simp only [ledger, hscopes, List.map_cons, Scope.sheet_define, Event.bookAll]

theorem declare (r : Resolver) {token : Token} (ht : token.NotReceiver) :
    r.Books [.declare token] [] (r.declare token) := by
  unfold Resolver.declare
  cases hscopes : r.scopes with
  | nil =>
    intro hr
    exact ⟨hr, by simp only [ledger, hscopes, Event.bookAll, Event.book, List.map_nil, Sheet.declareFirst], rfl⟩
  | cons scope outer =>
    have hany : scope.sheet.any (·.1.lexeme == token.lexeme) = (scope.find? token.lexeme).isSome := Scope.any_sheet ht
    intro hr
    dsimp only
    split
    · next hsome =>
      obtain ⟨hseated, hledger, -⟩ := refuse r token .redeclared hr
      refine ⟨hseated, hledger.trans ?_, rfl⟩
      simp only [ledger, hscopes, List.map_cons, Event.bookAll, Event.book, Sheet.declareFirst, Sheet.declare,
        hany, if_pos hsome]
    · next hnone =>
      rw [Seated, hscopes, List.forall_mem_cons] at hr
      refine ⟨List.forall_mem_cons.mpr ⟨fun x hx hname => ?_, hr.2⟩, ?_, rfl⟩
      · rcases List.mem_append.mp hx with hx | hx
        · exact hr.1 x hx hname
        · cases List.mem_singleton.mp hx
          exact absurd hname ht
      · have hsheet : (scope.declare token).sheet = scope.sheet ++ [(token, false)] := by
          have hne : (token.lexeme != receiverName) = true := bne_iff_ne.mpr ht
          simp [Scope.sheet, Scope.declare, hne]
        simp only [ledger, hscopes, List.map_cons, Event.bookAll, Event.book, Sheet.declareFirst, Sheet.declare,
          hany, if_neg hnone, hsheet]

theorem introduce (r : Resolver) {token : Token} (ht : token.NotReceiver) :
    r.Books [.declare token] [] (r.introduce token) := (declare r ht).trans (define _ token)

theorem foldl_introduce (r : Resolver) {params : List Token} (ht : ∀ p ∈ params, p.NotReceiver) :
    r.Books (params.map .declare) [] (params.foldl Resolver.introduce r) := by
  induction params generalizing r with
  | nil => exact refl r
  | cons p rest ih =>
    rw [List.forall_mem_cons] at ht
    exact (introduce r ht.1).trans (ih _ ht.2)

theorem seated_modify {scopes : List Scope} (h : ∀ scope ∈ scopes, scope.Seated) (d : Nat) (name : String) :
    ∀ scope ∈ scopes.modify d (·.use name), scope.Seated := by
  intro scope hscope
  obtain ⟨i, hi⟩ := List.mem_iff_getElem?.mp hscope
  rw [List.getElem?_modify] at hi
  obtain ⟨old, hold, rfl⟩ := Option.map_eq_some_iff.mp hi
  have hseated := h old (List.mem_of_getElem? hold)
  split
  · exact hseated.modify fun _ => ⟨rfl, fun _ => rfl⟩
  · exact hseated

/-- A reference is linked to the name that the nearest scope has, and marks it. -/
theorem refer (r : Resolver) (kind : ReferenceKind) (hkind : kind ≠ .this) (id : NodeId) {token : Token}
    (ht : token.NotReceiver) (around : List Initializing) :
    r.Books [.refer ⟨kind, id, token⟩] [⟨⟨kind, id, token⟩, r.scopes, around⟩] (r.refer id token) := by
  have hsheets : ∀ scopes : List Scope,
      Sheet.useFirst token.lexeme (scopes.map Scope.sheet) =
        ((distance? scopes token.lexeme).elim scopes fun d => scopes.modify d (·.use token.lexeme)).map Scope.sheet := by
    intro scopes
    induction scopes with
    | nil => rfl
    | cons scope outer ih =>
      rw [List.map_cons, Sheet.useFirst, Scope.any_sheet ht, distance?, List.findIdx?_cons]
      split
      · simp [Scope.sheet_use]
      · rw [ih, distance?]
        cases outer.findIdx? fun scope => (scope.find? token.lexeme).isSome <;> simp
  intro hr
  have hbooked : Event.bookAll [.refer ⟨kind, id, token⟩] r.ledger =
      ⟨Sheet.useFirst token.lexeme (r.scopes.map Scope.sheet), r.findings.filterMap Finding.advised?⟩ := rfl
  have hlink : [(⟨⟨kind, id, token⟩, r.scopes, around⟩ : Visit)].filterMap Visit.link? =
      Event.allLinks [.refer ⟨kind, id, token⟩] r.ledger.env := by
    have hfound := target?_env r ht
    rw [Event.allLinks, Event.links, Event.allLinks, List.append_nil, hfound]
    simp only [List.filterMap_cons, List.filterMap_nil, Visit.link?, Visit.name, if_neg hkind]
    cases r.scopes.findSome? (·.find? token.lexeme) <;> rfl
  rw [hbooked, hsheets]
  unfold Resolver.refer
  cases distance? r.scopes token.lexeme with
  | none => exact ⟨hr, rfl, hlink⟩
  | some d => exact ⟨seated_modify hr d _, rfl, hlink⟩

/-- A name is read: the check of its own initializer comes first. -/
theorem read (r : Resolver) (kind : ReferenceKind) (hkind : kind ≠ .this) (id : NodeId) {token : Token}
    (ht : token.NotReceiver) (around : List Initializing) :
    r.Books [.refer ⟨kind, id, token⟩] [⟨⟨kind, id, token⟩, r.scopes, around⟩] ((r.checkRead token).refer id token) := by
  have hread := (checkRead r token).trans (refer (r.checkRead token) kind hkind id ht around)
  rw [scopes_checkRead] at hread
  exact hread

/-- References to the receiver are not booked. -/
theorem refer_receiver (r : Resolver) (id : NodeId) {token : Token} (ht : token.lexeme = receiverName) :
    r.Books [] [] (r.refer id token) := by
  unfold Resolver.refer
  rw [ht]
  cases distance? r.scopes receiverName with
  | none => exact refl r
  | some d =>
    intro hr
    refine ⟨seated_modify hr d _, ?_, rfl⟩
    have hsheets : (r.scopes.modify d (·.use receiverName)).map Scope.sheet = r.scopes.map Scope.sheet := by
      apply List.ext_getElem?
      intro i
      simp only [List.getElem?_map, List.getElem?_modify]
      cases r.scopes[i]? with
      | none => rfl
      | some scope =>
        split
        · exact congrArg some (Scope.sheet_use_receiver scope)
        · rfl
    simp only [ledger, hsheets, Event.bookAll]

/-- What is booked in a scope of its own, which is closed behind it. -/
theorem inScope {start : Resolver} (h : start.Books a vs r') {scope : Scope}
    (hscopes : start.scopes = scope :: r.scopes) (hsheet : scope.sheet = []) (hseated : scope.Seated)
    (hfindings : start.findings = r.findings) : r.Books [.scope a] vs r'.closeScope := by
  intro hr
  have hstart : start.Seated := by
    rw [Seated, hscopes]
    exact List.forall_mem_cons.mpr ⟨hseated, hr⟩
  have hopened : start.ledger = { r.ledger with sheets := [] :: r.ledger.sheets } := by
    simp only [ledger, hscopes, List.map_cons, hsheet, hfindings]
  obtain ⟨hr', heq, hlinks⟩ := h hstart
  have hbooked : Event.bookAll [.scope a] r.ledger = r'.ledger.close := by
    rw [heq, hopened]
    rfl
  have hlinked : vs.filterMap Visit.link? = Event.allLinks [.scope a] r.ledger.env := by
    rw [hlinks, hopened, Event.allLinks, Event.links, Event.allLinks, List.append_nil]
    rfl
  rw [hbooked]
  unfold closeScope
  cases hopen : r'.scopes with
  | nil =>
    refine ⟨hr', ?_, hlinked⟩
    simp only [Ledger.close, ledger, hopen, List.map_nil]
  | cons inner outer =>
    rw [Seated, hopen, List.forall_mem_cons] at hr'
    refine ⟨hr'.2, ?_, hlinked⟩
    have hunused : (inner.unused.map Finding.unused).filterMap Finding.advised? = inner.sheet.unused := by
      rw [List.filterMap_map, ← Scope.unused_sheet hr'.1]
      exact List.filterMap_some
    simp only [Ledger.close, ledger, hopen, List.map_cons, List.filterMap_append, hunused]

/-- The scope around methods. -/
theorem receiver {name : Token} (h : (r.openReceiver name).Books a vs r') : r.Books [.scope a] vs r'.closeScope :=
  h.inScope rfl rfl (fun _ hx _ => by rw [List.mem_singleton.mp hx]) rfl

end Books

end Resolver

/-! ### Trees -/

namespace Event

/-- None of the names is that of the receiver. -/
def Plain (events : List Event) : Prop := ∀ t ∈ allTokens events, t.NotReceiver

theorem plain_append {a b : List Event} : Plain (a ++ b) ↔ Plain a ∧ Plain b := by
  simp only [Plain, allTokens_append, List.forall_mem_append]

theorem plain_declare {token : Token} {events : List Event} :
    Plain (.declare token :: events) ↔ token.NotReceiver ∧ Plain events := by
  simp only [Plain, allTokens, tokens, List.forall_mem_append, List.forall_mem_singleton]

theorem plain_refer {x : Reference} {events : List Event} :
    Plain (.refer x :: events) ↔ x.token.NotReceiver ∧ Plain events := by
  simp only [Plain, allTokens, tokens, List.forall_mem_append, List.forall_mem_singleton]

theorem plain_scope {events rest : List Event} : Plain (.scope events :: rest) ↔ Plain events ∧ Plain rest := by
  simp only [Plain, allTokens, tokens, List.forall_mem_append]

end Event

open Event Resolver

mutual

/-- The check of an expression books its events. -/
theorem Expr.books : (e : Expr) → e.Shaped → e.Named → Plain e.events → (around : List Initializing) →
    (r : Resolver) → r.Books e.events (e.visits around r) (e.resolve r)
  | .literal _, _, _, _, _, r => .refl r
  | .array _ _, _, _, _, _, r => .refl r
  | .unary _ right, hs, hn, hp, around, r => right.books hs hn hp around r
  | .binary left _ right, hs, hn, hp, around, r =>
    (left.books hs.1 hn.1 (plain_append.mp hp).1 around r).trans (right.books hs.2 hn.2 (plain_append.mp hp).2 around _)
  | .logical left _ right, hs, hn, hp, around, r =>
    (left.books hs.1 hn.1 (plain_append.mp hp).1 around r).trans (right.books hs.2 hn.2 (plain_append.mp hp).2 around _)
  | .grouping inner, hs, hn, hp, around, r => inner.books hs hn hp around r
  | .var id _, _, _, hp, around, r => .read r .var nofun id (plain_refer.mp hp).1 around
  | .global _, _, _, _, _, r => .refl r
  | .assign id _ value, hs, hn, hp, around, r =>
    (value.books hs hn.2 (plain_append.mp hp).1 around r).trans (.refer _ .assign nofun id hn.1 around)
  | .ternary condition _ yes no, hs, hn, hp, around, r =>
    have hboth := plain_append.mp (plain_append.mp hp).1
    ((condition.books hs.1 hn.1 hboth.1 around r).trans (yes.books hs.2.1 hn.2.1 hboth.2 around _)).trans
      (no.books hs.2.2 hn.2.2 (plain_append.mp hp).2 around _)
  | .call callee _ arguments, hs, hn, hp, around, r =>
    (callee.books hs.1 hn.1 (plain_append.mp hp).1 around r).trans
      (Expr.booksAll arguments hs.2 hn.2 (plain_append.mp hp).2 around _)
  | .lambda routine, hs, hn, hp, around, r => routine.books .function hs hn hp around r
  | .get object _, hs, hn, hp, around, r => object.books hs hn hp around r
  | .set object _ value, hs, hn, hp, around, r =>
    (value.books hs.2 hn.2 (plain_append.mp hp).1 around r).trans (object.books hs.1 hn.1 (plain_append.mp hp).2 around _)
  | .this id keyword, _, hn, _, around, r => by
    have hbooks : r.Books [] [] ((Expr.this id keyword).resolve r) := by
      rw [Expr.resolve]
      split
      · exact .refer_receiver r id hn
      · exact .refuse r _ _
    exact hbooks.visiting rfl
  | .subscript id _ index, hs, hn, hp, around, r =>
    (Books.read r .index nofun id (plain_refer.mp hp).1 around).trans
      (index.books hs hn (plain_refer.mp hp).2 around _)

theorem Expr.booksAll : (es : List Expr) → Expr.AllShaped es → Expr.AllNamed es → Plain (Expr.allEvents es) →
    (around : List Initializing) → (r : Resolver) →
    r.Books (Expr.allEvents es) (Expr.allVisits around es r) (Expr.resolveAll es r)
  | [], _, _, _, _, r => .refl r
  | e :: rest, hs, hn, hp, around, r =>
    (e.books hs.1 hn.1 (plain_append.mp hp).1 around r).trans
      (Expr.booksAll rest hs.2 hn.2 (plain_append.mp hp).2 around _)

/-- The check of a statement books its events. -/
theorem Stmt.books : (s : Stmt) → s.Shaped → s.Named → Plain s.events → (around : List Initializing) →
    (r : Resolver) → r.Books s.events (s.visits around r) (s.resolve r)
  | .expression value, hs, hn, hp, around, r => value.books hs hn hp around r
  | .print _ values, hs, hn, hp, around, r => Expr.booksAll values hs hn hp around r
  | .varDecl _ none, _, hn, _, _, r => .introduce r hn
  | .varDecl name (some value), hs, hn, hp, around, r => by
    have hvalue := value.books hs hn.2 (plain_declare.mp hp).2 (⟨name.lexeme, r.scopes.length⟩ :: around) (r.declare name)
    have hdefined := ((Books.declare r hn.1).trans hvalue).trans (.define _ name)
    rw [List.append_nil, List.append_nil] at hdefined
    exact hdefined
  | .block body, hs, hn, hp, around, r =>
    (Stmt.booksAll body hs hn (plain_scope.mp hp).1 around r.openScope).inScope rfl rfl nofun rfl
  | .ifElse condition yes none, hs, hn, hp, around, r =>
    (condition.books hs.1 hn.1 (plain_append.mp hp).1 around r).trans
      (yes.books hs.2.2 hn.2 (plain_append.mp hp).2 around _)
  | .ifElse condition yes (some no), hs, hn, hp, around, r =>
    have hboth := plain_append.mp (plain_append.mp hp).1
    ((condition.books hs.1 hn.1 hboth.1 around r).trans (yes.books hs.2.1.2 hn.2.1 hboth.2 around _)).trans
      (no.books hs.2.2.2 hn.2.2 (plain_append.mp hp).2 around _)
  | .whileLoop condition body, hs, hn, hp, around, r =>
    have hbody := body.books hs.2.2 hn.2 (plain_append.mp hp).2 around
      { condition.resolve r with loops := (condition.resolve r).loops + 1 }
    (condition.books hs.1 hn.1 (plain_append.mp hp).1 around r).trans (hbody.within rfl rfl rfl rfl)
  | .function routine, hs, hn, hp, around, r =>
    (Books.introduce r hn.1).trans (routine.books .function hs hn.2 (plain_declare.mp hp).2 around _)
  | .breakLoop keyword, _, _, _, _, r => by
    rw [Stmt.resolve]
    split
    · exact .refuse r _ _
    · exact .refl r
  | .returnValue keyword none, _, _, _, _, r => by
    rw [Stmt.resolve]
    split
    · exact .refuse r _ _
    · exact .refl r
  | .returnValue keyword (some value), hs, hn, hp, around, r => by
    rw [Stmt.resolve, Stmt.visits]
    split
    · exact (Books.refuse r keyword _).trans (value.books hs hn hp around _)
    · exact value.books hs hn hp around r
  | .classDecl name none methods, hs, hn, hp, around, r => by
    have hmethods := Routine.booksAll methods hs hn.2 (plain_scope.mp (plain_declare.mp hp).2).1 around
      (({ r with inClass := true }.introduce name).openReceiver name)
    exact ((Books.introduce { r with inClass := true } hn.1).trans hmethods.receiver).within rfl rfl rfl rfl
  | .classDecl name (some parent) methods, hs, hn, hp, around, r => by
    obtain ⟨⟨id, token, rfl⟩, hshaped⟩ := hs
    have hparts := plain_append.mp (plain_declare.mp hp).2
    have hmethods := Routine.booksAll methods hshaped hn.2.2 (plain_scope.mp hparts.2).1 around
      ((r.afterSuperclass name (some (.var id token))).openReceiver name)
    have hparent : ({ r with inClass := true }.introduce name).Books [.refer ⟨.var, id, token⟩]
        ((Expr.var id token).visits around ({ r with inClass := true }.introduce name))
        (r.afterSuperclass name (some (.var id token))) := by
      have hread := fun r => Books.read r .var nofun id (plain_refer.mp hparts.1).1 around
      unfold Resolver.afterSuperclass
      dsimp only
      split
      · exact (Books.refuse _ _ _).trans (hread _)
      · exact hread _
    exact ((Books.introduce { r with inClass := true } hn.1).trans (hparent.trans hmethods.receiver)).within
      rfl rfl rfl rfl
  | .useLibrary _ _, _, _, _, _, r => .refl r

theorem Stmt.booksAll : (body : List Stmt) → Stmt.AllShaped body → Stmt.AllNamed body → Plain (Stmt.allEvents body) →
    (around : List Initializing) → (r : Resolver) →
    r.Books (Stmt.allEvents body) (Stmt.allVisits around body r) (Stmt.resolveAll body r)
  | [], _, _, _, _, r => .refl r
  | s :: rest, hs, hn, hp, around, r =>
    (s.books hs.1 hn.1 (plain_append.mp hp).1 around r).trans
      (Stmt.booksAll rest hs.2 hn.2 (plain_append.mp hp).2 around _)

theorem Routine.books (kind : Enclosing) : (m : Routine) → m.Shaped → m.Named → Plain m.events →
    (around : List Initializing) → (r : Resolver) → r.Books m.events (m.visits around kind r) (m.resolve kind r)
  | ⟨_, params, body⟩, hs, hn, hp, around, r => by
    have hparams := Books.foldl_introduce { r with enclosing := kind, loops := 0 }.openScope hn.1
    have hbody := Stmt.booksAll body hs hn.2 (plain_append.mp (plain_scope.mp hp).1).2 around (r.enter kind params)
    have hscope : r.Books [.scope (params.map .declare ++ Stmt.allEvents body)]
        (Stmt.allVisits around body (r.enter kind params)) (Stmt.resolveAll body (r.enter kind params)).closeScope :=
      (hparams.trans hbody).inScope rfl rfl nofun rfl
    exact hscope.within rfl rfl rfl rfl

theorem Routine.booksAll : (methods : List Routine) → Routine.AllShaped methods → Routine.AllNamed methods →
    Plain (Routine.allEvents methods) → (around : List Initializing) → (r : Resolver) →
    r.Books (Routine.allEvents methods) (Routine.methodVisits around methods r) (Routine.resolveMethods methods r)
  | [], _, _, _, _, r => .refl r
  | m :: rest, hs, hn, hp, around, r =>
    (m.books _ hs.1 hn.1 (plain_append.mp hp).1 around r).trans
      (Routine.booksAll rest hs.2 hn.2 (plain_append.mp hp).2 around _)

end

end Treewalk
