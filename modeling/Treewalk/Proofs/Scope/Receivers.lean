import Treewalk.Proofs.Grammar.Naming
import Treewalk.Proofs.Scope.Jumps
import Treewalk.Proofs.Scope.Placement

/-!
Mentions of the receiver. Each stands at a depth in the routine that it belongs to, which is the number of scopes between
it and the body. In a method the check finds the receiver one scope further out, at whatever depth; outside of all
classes it refuses to find it.
-/

namespace Treewalk

/-- A mention of the receiver, with the number of scopes around it within the phrase that holds it. -/
structure Mention where
  id : NodeId
  keyword : Token
  depth : Nat
deriving DecidableEq, Repr

/-- The mention as seen from more scopes further out. -/
def Mention.deeper (x : Mention) (scopes : Nat) : Mention := { x with depth := x.depth + scopes }

theorem Mention.deeper_deeper (x : Mention) (i j : Nat) : (x.deeper i).deeper j = x.deeper (i + j) :=
  congrArg (Mention.mk x.id x.keyword) (Nat.add_assoc x.depth i j)

mutual

/-- The mentions of the receiver in an expression. Methods of classes within it have a receiver of their own. -/
def Expr.receivers : Expr → List Mention
  | .literal _ => []
  | .array _ _ => []
  | .unary _ right => right.receivers
  | .binary left _ right => left.receivers ++ right.receivers
  | .logical left _ right => left.receivers ++ right.receivers
  | .grouping inner => inner.receivers
  | .var _ _ => []
  | .global _ => []
  | .assign _ _ value => value.receivers
  | .ternary condition _ yes no => condition.receivers ++ yes.receivers ++ no.receivers
  | .call callee _ arguments => callee.receivers ++ Expr.allReceivers arguments
  | .lambda routine => routine.receivers.map (·.deeper 1)
  | .get object _ => object.receivers
  | .set object _ value => object.receivers ++ value.receivers
  | .this id keyword => [⟨id, keyword, 0⟩]
  | .subscript _ _ index => index.receivers

def Expr.allReceivers : List Expr → List Mention
  | [] => []
  | e :: rest => e.receivers ++ Expr.allReceivers rest

/-- The mentions of the receiver in a statement. Methods of classes within it have a receiver of their own. -/
def Stmt.receivers : Stmt → List Mention
  | .expression value => value.receivers
  | .print _ values => Expr.allReceivers values
  | .varDecl _ none => []
  | .varDecl _ (some value) => value.receivers
  | .block body => (Stmt.allReceivers body).map (·.deeper 1)
  | .ifElse condition yes none => condition.receivers ++ yes.receivers
  | .ifElse condition yes (some no) => condition.receivers ++ yes.receivers ++ no.receivers
  | .whileLoop condition body => condition.receivers ++ body.receivers
  | .function routine => routine.receivers.map (·.deeper 1)
  | .breakLoop _ => []
  | .returnValue _ none => []
  | .returnValue _ (some value) => value.receivers
  | .classDecl _ none _ => []
  | .classDecl _ (some parent) _ => parent.receivers
  | .useLibrary _ _ => []

def Stmt.allReceivers : List Stmt → List Mention
  | [] => []
  | s :: rest => s.receivers ++ Stmt.allReceivers rest

/-- The mentions of the receiver in the body of a routine. -/
def Routine.receivers : Routine → List Mention
  | ⟨_, _, body⟩ => Stmt.allReceivers body

end

theorem Expr.mem_allReceivers {es : List Expr} {x : Mention} :
    x ∈ Expr.allReceivers es ↔ ∃ e ∈ es, x ∈ e.receivers := by
  induction es with
  | nil => simp [Expr.allReceivers]
  | cons e rest ih => simp [Expr.allReceivers, ih]

theorem Stmt.mem_allReceivers {body : List Stmt} {x : Mention} :
    x ∈ Stmt.allReceivers body ↔ ∃ s ∈ body, x ∈ s.receivers := by
  induction body with
  | nil => simp [Stmt.allReceivers]
  | cons s rest ih => simp [Stmt.allReceivers, ih]

theorem Routine.receivers_eq (routine : Routine) : routine.receivers = Stmt.allReceivers routine.body := by
  cases routine
  rfl

open Resolver

/-! ### Distances to the receiver -/

/-- The nearest scope that declares the receiver is at the distance. -/
def Resolver.ReceiverAt (r : Resolver) (d : Nat) : Prop := r.names.findIdx? (receiverName ∈ ·) = some d

theorem findIdx?_declareName {name : String} (hname : name ≠ receiverName) (names : List (List String)) :
    (declareName name names).findIdx? (receiverName ∈ ·) = names.findIdx? (receiverName ∈ ·) := by
  cases names with
  | nil => rfl
  | cons scope outer =>
    rw [declareName, List.findIdx?_cons, List.findIdx?_cons]
    split
    · rfl
    · simp [hname.symm]

namespace Resolver.ReceiverAt

variable {r : Resolver} {d : Nat} (hr : r.ReceiverAt d)
include hr

theorem openScope : r.openScope.ReceiverAt (d + 1) := by
  rw [ReceiverAt, names_openScope, List.findIdx?_cons, show r.names.findIdx? (receiverName ∈ ·) = some d from hr]
  simp

theorem declare {name : Token} (hname : name.NotReceiver) : (r.declare name).ReceiverAt d := by
  rw [ReceiverAt, names_declare, findIdx?_declareName hname]
  exact hr

theorem introduce {name : Token} (hname : name.NotReceiver) : (r.introduce name).ReceiverAt d := by
  rw [ReceiverAt, names_introduce, findIdx?_declareName hname]
  exact hr

theorem enter (kind : Enclosing) {params : List Token} (hparams : ∀ p ∈ params, p.NotReceiver) :
    (r.enter kind params).ReceiverAt (d + 1) := by
  have hopen : Resolver.ReceiverAt { r with enclosing := kind, loops := 0 }.openScope (d + 1) := hr.openScope
  unfold Resolver.enter
  generalize { r with enclosing := kind, loops := 0 }.openScope = r' at hopen
  induction params generalizing r' with
  | nil => exact hopen
  | cons p rest ih =>
    refine ih (fun q hq => hparams q (List.mem_cons_of_mem _ hq)) _ ?_
    exact hopen.introduce (hparams p List.mem_cons_self)

theorem refuse (token : Token) (fault : ScopeFault) : (r.refuse token fault).ReceiverAt d := hr

theorem expr {e : Expr} (he : e.Shaped) : (e.resolve r).ReceiverAt d := by
  rw [ReceiverAt, (e.walk [] r he).names_eq]
  exact hr

theorem stmt {s : Stmt} (hs : s.Shaped) (hn : s.Named) : (s.resolve r).ReceiverAt d := by
  rw [ReceiverAt, (s.walk [] r hs).names_eq]
  cases hd : s.declared? with
  | none => exact hr
  | some name =>
    rw [declareIn, findIdx?_declareName (hn.declared? hd)]
    exact hr

end Resolver.ReceiverAt

/-- Each mention is visited, and the check finds the receiver so many scopes outside of the phrase. -/
def Mention.Found (d : Nat) (mentions : List Mention) (visits : List Visit) : Prop :=
  ∀ x ∈ mentions, ∃ v ∈ visits, v.reference = ⟨.this, x.id, x.keyword⟩ ∧ distance? v.scopes v.name = some (x.depth + d)

namespace Mention.Found

variable {d : Nat} {xs ys : List Mention} {vs ws : List Visit}

theorem nil (vs : List Visit) : Found d [] vs := nofun

theorem mono (h : Found d xs vs) (hsub : vs ⊆ ws) : Found d xs ws := fun x hx => by
  obtain ⟨v, hv, hfound⟩ := h x hx
  exact ⟨v, hsub hv, hfound⟩

theorem both (h : Found d xs vs) (h' : Found d ys vs) : Found d (xs ++ ys) vs :=
  fun x hx => (List.mem_append.mp hx).elim (h x) (h' x)

theorem append (h : Found d xs vs) (h' : Found d ys ws) : Found d (xs ++ ys) (vs ++ ws) :=
  both (h.mono (List.subset_append_left _ _)) (h'.mono (List.subset_append_right _ _))

theorem outward (h : Found (d + 1) xs vs) : Found d (xs.map (·.deeper 1)) vs := fun x hx => by
  obtain ⟨y, hy, rfl⟩ := List.mem_map.mp hx
  obtain ⟨v, hv, href, hdistance⟩ := h y hy
  refine ⟨v, hv, href, hdistance.trans (congrArg some ?_)⟩
  simp only [deeper]
  omega

end Mention.Found

open Mention (Found)

mutual

theorem Expr.found : ∀ (e : Expr) (around : List Initializing) (r : Resolver) {d : Nat}, e.Named → e.Shaped →
    r.ReceiverAt d → Found d e.receivers (e.visits around r)
  | .literal _, _, _, _, _, _, _ => Found.nil _
  | .array _ _, _, _, _, _, _, _ => Found.nil _
  | .unary _ right, around, r, _, hn, hs, hr => right.found around r hn hs hr
  | .binary left _ right, around, r, _, hn, hs, hr =>
    (left.found around r hn.1 hs.1 hr).append (right.found around _ hn.2 hs.2 (hr.expr hs.1))
  | .logical left _ right, around, r, _, hn, hs, hr =>
    (left.found around r hn.1 hs.1 hr).append (right.found around _ hn.2 hs.2 (hr.expr hs.1))
  | .grouping inner, around, r, _, hn, hs, hr => inner.found around r hn hs hr
  | .var _ _, _, _, _, _, _, _ => Found.nil _
  | .global _, _, _, _, _, _, _ => Found.nil _
  | .assign _ _ value, around, r, _, hn, hs, hr =>
    (value.found around r hn.2 hs hr).mono (List.subset_append_left _ _)
  | .ternary condition _ yes no, around, r, _, hn, hs, hr =>
    ((condition.found around r hn.1 hs.1 hr).append (yes.found around _ hn.2.1 hs.2.1 (hr.expr hs.1))).append
      (no.found around _ hn.2.2 hs.2.2 ((hr.expr hs.1).expr hs.2.1))
  | .call callee _ arguments, around, r, _, hn, hs, hr =>
    (callee.found around r hn.1 hs.1 hr).append (Expr.allFound arguments around _ hn.2 hs.2 (hr.expr hs.1))
  | .lambda routine, around, r, _, hn, hs, hr => (routine.found .function around r hn hs hr).outward
  | .get object _, around, r, _, hn, hs, hr => object.found around r hn hs hr
  | .set object _ value, around, r, _, hn, hs, hr => by
    have hvalue := value.found around r hn.2 hs.2 hr
    have hobject := object.found around (value.resolve r) hn.1 hs.1 (hr.expr hs.2)
    exact (hobject.mono (List.subset_append_right _ _)).both (hvalue.mono (List.subset_append_left _ _))
  | .this id keyword, around, r, d, hn, _, hr => by
    intro x hx
    obtain rfl := List.mem_singleton.mp hx
    refine ⟨_, List.mem_singleton_self _, rfl, ?_⟩
    have hname : keyword.lexeme = receiverName := hn
    rw [Visit.name, hname, distance?_eq, Nat.zero_add]
    exact hr
  | .subscript id name index, around, r, d, hn, hs, hr => by
    have hread : ((r.checkRead name).refer id name).ReceiverAt d := by
      rw [ReceiverAt, names_refer, names_checkRead]
      exact hr
    exact (index.found around _ hn hs hread).mono (List.subset_cons_self _ _)

theorem Expr.allFound : ∀ (es : List Expr) (around : List Initializing) (r : Resolver) {d : Nat}, Expr.AllNamed es →
    Expr.AllShaped es → r.ReceiverAt d → Found d (Expr.allReceivers es) (Expr.allVisits around es r)
  | [], _, _, _, _, _, _ => Found.nil _
  | e :: rest, around, r, _, hn, hs, hr =>
    (e.found around r hn.1 hs.1 hr).append (Expr.allFound rest around _ hn.2 hs.2 (hr.expr hs.1))

theorem Stmt.found : ∀ (s : Stmt) (around : List Initializing) (r : Resolver) {d : Nat}, s.Named → s.Shaped →
    r.ReceiverAt d → Found d s.receivers (s.visits around r)
  | .expression value, around, r, _, hn, hs, hr => value.found around r hn hs hr
  | .print _ values, around, r, _, hn, hs, hr => Expr.allFound values around r hn hs hr
  | .varDecl _ none, _, _, _, _, _, _ => Found.nil _
  | .varDecl name (some value), _, r, _, hn, hs, hr => value.found _ (r.declare name) hn.2 hs (hr.declare hn.1)
  | .block body, around, r, _, hn, hs, hr => (Stmt.allFound body around r.openScope hn hs hr.openScope).outward
  | .ifElse condition yes none, around, r, _, hn, hs, hr =>
    (condition.found around r hn.1 hs.1 hr).append (yes.found around _ hn.2 hs.2.2 (hr.expr hs.1))
  | .ifElse condition yes (some no), around, r, _, hn, hs, hr =>
    ((condition.found around r hn.1 hs.1 hr).append (yes.found around _ hn.2.1 hs.2.1.2 (hr.expr hs.1))).append
      (no.found around _ hn.2.2 hs.2.2.2 ((hr.expr hs.1).stmt hs.2.1.2 hn.2.1))
  | .whileLoop condition body, around, r, _, hn, hs, hr =>
    (condition.found around r hn.1 hs.1 hr).append
      (body.found around { condition.resolve r with loops := (condition.resolve r).loops + 1 } hn.2 hs.2.2 (hr.expr hs.1))
  | .function routine, around, r, _, hn, hs, hr =>
    (routine.found .function around (r.introduce routine.name) hn.2 hs (hr.introduce hn.1)).outward
  | .breakLoop _, _, _, _, _, _, _ => Found.nil _
  | .returnValue _ none, _, _, _, _, _, _ => Found.nil _
  | .returnValue keyword (some value), around, r, d, hn, hs, hr => by
    refine value.found around _ hn hs ?_
    split
    · exact hr.refuse keyword .returnOutsideFunction
    · exact hr
  | .classDecl _ none _, _, _, _, _, _, _ => Found.nil _
  | .classDecl _ (some parent) _, _, _, _, _, hs, _ => by
    obtain ⟨⟨id, token, rfl⟩, -⟩ := hs
    exact Found.nil _
  | .useLibrary _ _, _, _, _, _, _, _ => Found.nil _

theorem Stmt.allFound : ∀ (body : List Stmt) (around : List Initializing) (r : Resolver) {d : Nat},
    Stmt.AllNamed body → Stmt.AllShaped body → r.ReceiverAt d →
    Found d (Stmt.allReceivers body) (Stmt.allVisits around body r)
  | [], _, _, _, _, _, _ => Found.nil _
  | s :: rest, around, r, _, hn, hs, hr =>
    (s.found around r hn.1 hs.1 hr).append (Stmt.allFound rest around _ hn.2 hs.2 (hr.stmt hs.1 hn.1))

theorem Routine.found (kind : Enclosing) : ∀ (routine : Routine) (around : List Initializing) (r : Resolver) {d : Nat},
    routine.Named → routine.Shaped → r.ReceiverAt d → Found (d + 1) routine.receivers (routine.visits around kind r)
  | ⟨_, _, body⟩, around, _, _, hn, hs, hr => Stmt.allFound body around _ hn.2 hs (hr.enter kind hn.1)

end

/-- In a method the receiver is found right outside of the body. -/
theorem Closure.PlacedAsMethod.found {known : List Visit} {h : Heap} {f : Closure} (hf : f.PlacedAsMethod known h)
    (hn : f.routine.Named) : Found 1 f.routine.receivers known := by
  obtain ⟨around, kind, r, outer, hchecked, hnames, -⟩ := hf
  have hr : r.ReceiverAt 0 := by
    rw [ReceiverAt, hnames]
    rfl
  exact (f.routine.found kind around r hn hchecked.shaped hr).mono hchecked.visits

/-! ### Outside of classes -/

mutual

theorem Expr.receivers_eq_nil : ∀ {e : Expr} {r : Resolver}, e.Shaped → (e.resolve r).Clean → r.inClass = false →
    e.receivers = []
  | .literal _, _, _, _, _ => rfl
  | .array _ _, _, _, _, _ => rfl
  | .unary _ right, _, hs, hclean, hr => Expr.receivers_eq_nil (e := right) hs hclean hr
  | .binary left _ right, r, hs, hclean, hr => by
    have hleft := Expr.receivers_eq_nil hs.1 (hclean.of_findings (right.level _).findings) hr
    have hright := Expr.receivers_eq_nil hs.2 hclean ((left.level r).inClass.trans hr)
    exact List.append_eq_nil_iff.mpr ⟨hleft, hright⟩
  | .logical left _ right, r, hs, hclean, hr => by
    have hleft := Expr.receivers_eq_nil hs.1 (hclean.of_findings (right.level _).findings) hr
    have hright := Expr.receivers_eq_nil hs.2 hclean ((left.level r).inClass.trans hr)
    exact List.append_eq_nil_iff.mpr ⟨hleft, hright⟩
  | .grouping inner, _, hs, hclean, hr => Expr.receivers_eq_nil (e := inner) hs hclean hr
  | .var _ _, _, _, _, _ => rfl
  | .global _, _, _, _, _ => rfl
  | .assign id name value, r, hs, hclean, hr =>
    Expr.receivers_eq_nil (e := value) hs (hclean.of_findings (Level.refer _ id name).findings) hr
  | .ternary condition _ yes no, r, hs, hclean, hr => by
    have hin := (condition.level r).inClass.trans hr
    have hyesno := (yes.level (condition.resolve r)).findings.trans (no.level _).findings
    have hcondition := Expr.receivers_eq_nil hs.1 (hclean.of_findings hyesno) hr
    have hyes := Expr.receivers_eq_nil hs.2.1 (hclean.of_findings (no.level _).findings) hin
    have hno := Expr.receivers_eq_nil hs.2.2 hclean ((yes.level _).inClass.trans hin)
    rw [Expr.receivers, hcondition, hyes, hno]
    rfl
  | .call callee _ arguments, r, hs, hclean, hr => by
    have hcallee := Expr.receivers_eq_nil hs.1 (hclean.of_findings (Expr.allLevel arguments _).findings) hr
    have harguments := Expr.allReceivers_eq_nil hs.2 hclean ((callee.level r).inClass.trans hr)
    exact List.append_eq_nil_iff.mpr ⟨hcallee, harguments⟩
  | .lambda routine, _, hs, hclean, hr => List.map_eq_nil_iff.mpr (Routine.receivers_eq_nil hs hclean hr)
  | .get object _, _, hs, hclean, hr => Expr.receivers_eq_nil (e := object) hs hclean hr
  | .set object _ value, r, hs, hclean, hr => by
    have hvalue := Expr.receivers_eq_nil hs.2 (hclean.of_findings (object.level _).findings) hr
    have hobject := Expr.receivers_eq_nil hs.1 hclean ((value.level r).inClass.trans hr)
    exact List.append_eq_nil_iff.mpr ⟨hobject, hvalue⟩
  | .this id keyword, r, _, hclean, hr => by
    simp only [Expr.resolve, hr, Bool.false_eq_true, if_false] at hclean
    exact (hclean.not_refuse (Level.refl _)).elim
  | .subscript id name index, r, hs, hclean, hr => by
    have hread := (Level.checkRead r name).trans (Level.refer _ id name)
    exact Expr.receivers_eq_nil (e := index) hs hclean (hread.inClass.trans hr)

theorem Expr.allReceivers_eq_nil : ∀ {es : List Expr} {r : Resolver}, Expr.AllShaped es →
    (Expr.resolveAll es r).Clean → r.inClass = false → Expr.allReceivers es = []
  | [], _, _, _, _ => rfl
  | e :: rest, r, hs, hclean, hr => by
    have he := Expr.receivers_eq_nil hs.1 (hclean.of_findings (Expr.allLevel rest _).findings) hr
    have hrest := Expr.allReceivers_eq_nil hs.2 hclean ((e.level r).inClass.trans hr)
    exact List.append_eq_nil_iff.mpr ⟨he, hrest⟩

theorem Stmt.receivers_eq_nil : ∀ {s : Stmt} {r : Resolver}, s.Shaped → (s.resolve r).Clean → r.inClass = false →
    s.receivers = []
  | .expression value, _, hs, hclean, hr => Expr.receivers_eq_nil (e := value) hs hclean hr
  | .print _ values, _, hs, hclean, hr => @Expr.allReceivers_eq_nil values _ hs hclean hr
  | .varDecl _ none, _, _, _, _ => rfl
  | .varDecl name (some value), r, hs, hclean, hr =>
    Expr.receivers_eq_nil (e := value) hs (Clean.of_findings hclean (Level.define _ name).findings)
      ((Level.declare r name).inClass.trans hr)
  | .block body, r, hs, hclean, hr => by
    have hbody : (Stmt.resolveAll body r.openScope).Clean := Clean.of_findings hclean (Level.closeScope _).findings
    exact List.map_eq_nil_iff.mpr (Stmt.allReceivers_eq_nil hs hbody hr)
  | .ifElse condition yes none, r, hs, hclean, hr => by
    have hcondition := Expr.receivers_eq_nil hs.1 (hclean.of_findings (yes.level _).findings) hr
    have hyes := Stmt.receivers_eq_nil hs.2.2 hclean ((condition.level r).inClass.trans hr)
    exact List.append_eq_nil_iff.mpr ⟨hcondition, hyes⟩
  | .ifElse condition yes (some no), r, hs, hclean, hr => by
    have hin := (condition.level r).inClass.trans hr
    have hyesno := (yes.level (condition.resolve r)).findings.trans (no.level _).findings
    have hcondition := Expr.receivers_eq_nil hs.1 (hclean.of_findings hyesno) hr
    have hyes := Stmt.receivers_eq_nil hs.2.1.2 (hclean.of_findings (no.level _).findings) hin
    have hno := Stmt.receivers_eq_nil hs.2.2.2 hclean ((yes.level _).inClass.trans hin)
    rw [Stmt.receivers, hcondition, hyes, hno]
    rfl
  | .whileLoop condition body, r, hs, hclean, hr => by
    have hbody := body.level { condition.resolve r with loops := (condition.resolve r).loops + 1 }
    have hcondition := Expr.receivers_eq_nil hs.1 (Clean.of_findings hclean hbody.findings) hr
    have hinner : Resolver.inClass { condition.resolve r with loops := (condition.resolve r).loops + 1 } = false :=
      (condition.level r).inClass.trans hr
    exact List.append_eq_nil_iff.mpr ⟨hcondition, Stmt.receivers_eq_nil (s := body) hs.2.2 hclean hinner⟩
  | .function routine, r, hs, hclean, hr => by
    have hroutine := Routine.receivers_eq_nil hs hclean ((Level.introduce r routine.name).inClass.trans hr)
    exact List.map_eq_nil_iff.mpr hroutine
  | .breakLoop _, _, _, _, _ => rfl
  | .returnValue _ none, _, _, _, _ => rfl
  | .returnValue keyword (some value), r, hs, hclean, hr => by
    refine Expr.receivers_eq_nil (e := value) hs hclean ?_
    split
    · exact hr
    · exact hr
  | .classDecl _ none _, _, _, _, _ => rfl
  | .classDecl _ (some parent) _, _, hs, _, _ => by
    obtain ⟨⟨id, token, rfl⟩, -⟩ := hs
    rfl
  | .useLibrary _ _, _, _, _, _ => rfl

theorem Stmt.allReceivers_eq_nil : ∀ {body : List Stmt} {r : Resolver}, Stmt.AllShaped body →
    (Stmt.resolveAll body r).Clean → r.inClass = false → Stmt.allReceivers body = []
  | [], _, _, _, _ => rfl
  | s :: rest, r, hs, hclean, hr => by
    have hstmt := Stmt.receivers_eq_nil hs.1 (hclean.of_findings (Stmt.allLevel rest _).findings) hr
    have hrest := Stmt.allReceivers_eq_nil hs.2 hclean ((s.level r).inClass.trans hr)
    exact List.append_eq_nil_iff.mpr ⟨hstmt, hrest⟩

theorem Routine.receivers_eq_nil {kind : Enclosing} : ∀ {routine : Routine} {r : Resolver}, routine.Shaped →
    (routine.resolve kind r).Clean → r.inClass = false → routine.receivers = []
  | ⟨_, params, body⟩, r, hs, hclean, hr => by
    have hbody : (Stmt.resolveAll body (r.enter kind params)).Clean :=
      Clean.of_findings hclean (Level.closeScope _).findings
    exact Stmt.allReceivers_eq_nil hs hbody ((Level.introduceAll params _).inClass.trans hr)

end

end Treewalk
