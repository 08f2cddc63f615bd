import Treewalk.Proofs.Grammar.Trees
import Treewalk.Proofs.Tree.Parts
import Treewalk.Proofs.Tree.Relabeling

/-!
Copies of trees, and the references in them. A relabeling keeps the shape of a tree and relabels its references one by
one. The references of a part are among those of the whole, in their order; so where no two references of a tree have one
identity, that holds in all of its parts.
-/

namespace Treewalk

variable {f : Relabeling}

/-! ### Copies -/

/-- The reference with new labels. -/
def Reference.relabel (f : Relabeling) (x : Reference) : Reference := ⟨x.kind, f.node x.id, x.token.relabel f⟩

mutual

theorem Expr.references_relabel : ∀ e : Expr, (e.relabel f).references = e.references.map (·.relabel f)
  | .literal _ => rfl
  | .array _ _ => rfl
  | .unary _ right => right.references_relabel
  | .binary left _ right => by
    rw [Expr.relabel, Expr.references, Expr.references, List.map_append, left.references_relabel, right.references_relabel]
  | .logical left _ right => by
    rw [Expr.relabel, Expr.references, Expr.references, List.map_append, left.references_relabel, right.references_relabel]
  | .grouping inner => inner.references_relabel
  | .var _ _ => rfl
  | .global _ => rfl
  | .assign _ _ value => by
    rw [Expr.relabel, Expr.references, Expr.references, List.map_cons, value.references_relabel]
    rfl
  | .ternary condition _ yes no => by
    rw [Expr.relabel, Expr.references, Expr.references, List.map_append, List.map_append, condition.references_relabel,
      yes.references_relabel, no.references_relabel]
  | .call callee _ arguments => by
    rw [Expr.relabel, Expr.references, Expr.references, List.map_append, callee.references_relabel,
      Expr.allReferences_relabelAll arguments]
  | .lambda routine => routine.references_relabel
  | .get object _ => object.references_relabel
  | .set object _ value => by
    rw [Expr.relabel, Expr.references, Expr.references, List.map_append, object.references_relabel,
      value.references_relabel]
  | .this _ _ => rfl
  | .subscript _ _ index => by
    rw [Expr.relabel, Expr.references, Expr.references, List.map_cons, index.references_relabel]
    rfl

theorem Expr.allReferences_relabelAll : ∀ es : List Expr,
    Expr.allReferences (Expr.relabelAll f es) = (Expr.allReferences es).map (·.relabel f)
  | [] => rfl
  | e :: rest => by
    rw [Expr.relabelAll, Expr.allReferences, Expr.allReferences, List.map_append, e.references_relabel,
      Expr.allReferences_relabelAll rest]

theorem Stmt.references_relabel : ∀ s : Stmt, (s.relabel f).references = s.references.map (·.relabel f)
  | .expression value => value.references_relabel
  | .print _ values => Expr.allReferences_relabelAll values
  | .varDecl _ none => rfl
  | .varDecl _ (some value) => value.references_relabel
  | .block body => Stmt.allReferences_relabelAll body
  | .ifElse condition yes none => by
    rw [Stmt.relabel, Stmt.references, Stmt.references, List.map_append, condition.references_relabel,
      yes.references_relabel]
  | .ifElse condition yes (some no) => by
    rw [Stmt.relabel, Stmt.references, Stmt.references, List.map_append, List.map_append, condition.references_relabel,
      yes.references_relabel, no.references_relabel]
  | .whileLoop condition body => by
    rw [Stmt.relabel, Stmt.references, Stmt.references, List.map_append, condition.references_relabel,
      body.references_relabel]
  | .function routine => routine.references_relabel
  | .breakLoop _ => rfl
  | .returnValue _ none => rfl
  | .returnValue _ (some value) => value.references_relabel
  | .classDecl _ none methods => Routine.allReferences_relabelAll methods
  | .classDecl _ (some parent) methods => by
    rw [Stmt.relabel, Stmt.references, Stmt.references, List.map_append, parent.references_relabel,
      Routine.allReferences_relabelAll methods]
  | .useLibrary _ _ => rfl

theorem Stmt.allReferences_relabelAll : ∀ body : List Stmt,
    Stmt.allReferences (Stmt.relabelAll f body) = (Stmt.allReferences body).map (·.relabel f)
  | [] => rfl
  | s :: rest => by
    rw [Stmt.relabelAll, Stmt.allReferences, Stmt.allReferences, List.map_append, s.references_relabel,
      Stmt.allReferences_relabelAll rest]

theorem Routine.references_relabel : ∀ r : Routine, (r.relabel f).references = r.references.map (·.relabel f)
  | ⟨_, _, body⟩ => Stmt.allReferences_relabelAll body

theorem Routine.allReferences_relabelAll : ∀ methods : List Routine,
    Routine.allReferences (Routine.relabelAll f methods) = (Routine.allReferences methods).map (·.relabel f)
  | [] => rfl
  | r :: rest => by
    rw [Routine.relabelAll, Routine.allReferences, Routine.allReferences, List.map_append, r.references_relabel,
      Routine.allReferences_relabelAll rest]

end

theorem Stmt.declared?_relabel (s : Stmt) : (s.relabel f).declared? = s.declared?.map (·.relabel f) := by
  match s with
  | .varDecl _ none => rfl
  | .varDecl _ (some _) => rfl
  | .ifElse _ _ none => rfl
  | .ifElse _ _ (some _) => rfl
  | .returnValue _ none => rfl
  | .returnValue _ (some _) => rfl
  | .classDecl _ none _ => rfl
  | .classDecl _ (some _) _ => rfl
  | .function ⟨_, _, _⟩ => rfl
  | .expression _ => rfl
  | .print _ _ => rfl
  | .block _ => rfl
  | .whileLoop _ _ => rfl
  | .breakLoop _ => rfl
  | .useLibrary _ _ => rfl

theorem Stmt.declares_nothing_relabel {s : Stmt} (h : s.declared? = none) : (s.relabel f).declared? = none := by
  rw [declared?_relabel, h]
  rfl

mutual

theorem Expr.shaped_relabel : ∀ e : Expr, e.Shaped → (e.relabel f).Shaped
  | .literal _, _ => trivial
  | .array _ _, _ => trivial
  | .unary _ right, h => right.shaped_relabel h
  | .binary left _ right, h => ⟨left.shaped_relabel h.1, right.shaped_relabel h.2⟩
  | .logical left _ right, h => ⟨left.shaped_relabel h.1, right.shaped_relabel h.2⟩
  | .grouping inner, h => inner.shaped_relabel h
  | .var _ _, _ => trivial
  | .global _, _ => trivial
  | .assign _ _ value, h => value.shaped_relabel h
  | .ternary condition _ yes no, h =>
    ⟨condition.shaped_relabel h.1, yes.shaped_relabel h.2.1, no.shaped_relabel h.2.2⟩
  | .call callee _ arguments, h => ⟨callee.shaped_relabel h.1, Expr.allShaped_relabelAll arguments h.2⟩
  | .lambda routine, h => routine.shaped_relabel h
  | .get object _, h => object.shaped_relabel h
  | .set object _ value, h => ⟨object.shaped_relabel h.1, value.shaped_relabel h.2⟩
  | .this _ _, _ => trivial
  | .subscript _ _ index, h => index.shaped_relabel h

theorem Expr.allShaped_relabelAll : ∀ es : List Expr, Expr.AllShaped es → Expr.AllShaped (Expr.relabelAll f es)
  | [], _ => trivial
  | e :: rest, h => ⟨e.shaped_relabel h.1, Expr.allShaped_relabelAll rest h.2⟩

theorem Stmt.shaped_relabel : ∀ s : Stmt, s.Shaped → (s.relabel f).Shaped
  | .expression value, h => value.shaped_relabel h
  | .print _ values, h => Expr.allShaped_relabelAll values h
  | .varDecl _ none, _ => trivial
  | .varDecl _ (some value), h => value.shaped_relabel h
  | .block body, h => Stmt.allShaped_relabelAll body h
  | .ifElse condition yes none, h =>
    ⟨condition.shaped_relabel h.1, Stmt.declares_nothing_relabel h.2.1, yes.shaped_relabel h.2.2⟩
  | .ifElse condition yes (some no), h =>
    ⟨condition.shaped_relabel h.1,
      ⟨Stmt.declares_nothing_relabel h.2.1.1, yes.shaped_relabel h.2.1.2⟩,
      Stmt.declares_nothing_relabel h.2.2.1, no.shaped_relabel h.2.2.2⟩
  | .whileLoop condition body, h =>
    ⟨condition.shaped_relabel h.1, Stmt.declares_nothing_relabel h.2.1, body.shaped_relabel h.2.2⟩
  | .function routine, h => routine.shaped_relabel h
  | .breakLoop _, _ => trivial
  | .returnValue _ none, _ => trivial
  | .returnValue _ (some value), h => value.shaped_relabel h
  | .classDecl _ none methods, h => Routine.allShaped_relabelAll methods h
  | .classDecl _ (some parent) methods, h => by
    obtain ⟨⟨id, token, rfl⟩, h⟩ := h
    exact ⟨⟨_, _, rfl⟩, Routine.allShaped_relabelAll methods h⟩
  | .useLibrary _ _, _ => trivial

theorem Stmt.allShaped_relabelAll : ∀ body : List Stmt, Stmt.AllShaped body →
    Stmt.AllShaped (Stmt.relabelAll f body)
  | [], _ => trivial
  | s :: rest, h => ⟨s.shaped_relabel h.1, Stmt.allShaped_relabelAll rest h.2⟩

theorem Routine.shaped_relabel : ∀ r : Routine, r.Shaped → (r.relabel f).Shaped
  | ⟨_, _, body⟩, h => Stmt.allShaped_relabelAll body h

theorem Routine.allShaped_relabelAll : ∀ methods : List Routine, Routine.AllShaped methods →
    Routine.AllShaped (Routine.relabelAll f methods)
  | [], _ => trivial
  | r :: rest, h => ⟨r.shaped_relabel h.1, Routine.allShaped_relabelAll rest h.2⟩

end

/-! ### Parts -/

namespace Tree

/-- The references in a node and below it. -/
def references : Tree → List Reference
  | expr e => e.references
  | stmt s => s.references
  | routine r => r.references

/-- No two references have one identity. -/
def Distinct (t : Tree) : Prop := (t.references.map (·.id)).Nodup

theorem allReferences_exprs (es : List Expr) : Expr.allReferences es = (es.map (·.references)).flatten := by
  induction es with
  | nil => rfl
  | cons e rest ih => rw [Expr.allReferences, ih, List.map_cons, List.flatten_cons]

theorem allReferences_stmts (body : List Stmt) : Stmt.allReferences body = (body.map (·.references)).flatten := by
  induction body with
  | nil => rfl
  | cons s rest ih => rw [Stmt.allReferences, ih, List.map_cons, List.flatten_cons]

theorem allReferences_routines (methods : List Routine) :
    Routine.allReferences methods = (methods.map (·.references)).flatten := by
  induction methods with
  | nil => rfl
  | cons r rest ih => rw [Routine.allReferences, ih, List.map_cons, List.flatten_cons]

theorem sublist_flatten {α : Type} {a : α} {as : List α} (h : a ∈ as) (g : α → List Reference) :
    (g a).Sublist (as.map g).flatten :=
  List.sublist_flatten_of_mem (List.mem_map_of_mem h)

theorem references_operand {e operand : Expr} (h : operand ∈ e.parts) : operand.references.Sublist e.references := by
  have pair : ∀ {left right : Expr}, operand ∈ [left, right] →
      operand.references.Sublist (left.references ++ right.references) := by
    intro left right h
    rcases List.mem_cons.mp h with rfl | h
    · exact List.sublist_append_left _ _
    · rw [List.mem_singleton.mp h]
      exact List.sublist_append_right _ _
  cases e with
  | unary operator right =>
    cases List.mem_singleton.mp h
    exact List.Sublist.refl _
  | binary left operator right => exact pair h
  | logical left operator right => exact pair h
  | grouping inner =>
    cases List.mem_singleton.mp h
    exact List.Sublist.refl _
  | assign id name value =>
    cases List.mem_singleton.mp h
    exact List.sublist_cons_self _ _
  | ternary condition question yes no =>
    rcases List.mem_cons.mp h with rfl | h
    · exact (List.sublist_append_left _ _).trans (List.sublist_append_left _ _)
    · rw [Expr.references, List.append_assoc]
      exact (pair h).trans (List.sublist_append_right _ _)
  | call callee paren arguments =>
    rcases List.mem_cons.mp h with rfl | h
    · exact List.sublist_append_left _ _
    · rw [Expr.references, allReferences_exprs]
      exact (sublist_flatten h _).trans (List.sublist_append_right _ _)
  | get object name =>
    cases List.mem_singleton.mp h
    exact List.Sublist.refl _
  | set object name value => exact pair h
  | subscript id name index =>
    cases List.mem_singleton.mp h
    exact List.sublist_cons_self _ _
  | _ => cases h

theorem references_expression {s : Stmt} {e : Expr} (h : e ∈ s.expressions) : e.references.Sublist s.references := by
  cases s with
  | expression value =>
    cases List.mem_singleton.mp h
    exact List.Sublist.refl _
  | print keyword values =>
    rw [Stmt.references, allReferences_exprs]
    exact sublist_flatten h _
  | varDecl name initializer =>
    cases Option.mem_toList.mp h
    exact List.Sublist.refl _
  | ifElse condition yes no =>
    cases List.mem_singleton.mp h
    cases no with
    | none => exact List.sublist_append_left _ _
    | some no => exact (List.sublist_append_left _ _).trans (List.sublist_append_left _ _)
  | whileLoop condition body =>
    cases List.mem_singleton.mp h
    exact List.sublist_append_left _ _
  | returnValue keyword value =>
    cases Option.mem_toList.mp h
    exact List.Sublist.refl _
  | classDecl name parent methods =>
    cases Option.mem_toList.mp h
    exact List.sublist_append_left _ _
  | _ => cases h

theorem references_branch {s branch : Stmt} (h : branch ∈ s.branches) : branch.references.Sublist s.references := by
  cases s with
  | ifElse condition yes no =>
    rcases List.mem_cons.mp h with rfl | h
    · cases no with
      | none => exact List.sublist_append_right _ _
      | some no => exact (List.sublist_append_right _ _).trans (List.sublist_append_left _ _)
    · cases Option.mem_toList.mp h
      exact List.sublist_append_right _ _
  | whileLoop condition body =>
    cases List.mem_singleton.mp h
    exact List.sublist_append_right _ _
  | _ => cases h

theorem references_inner {s inner : Stmt} (h : inner ∈ s.inner) : inner.references.Sublist s.references := by
  cases s with
  | block body =>
    rw [Stmt.references, allReferences_stmts]
    exact sublist_flatten h _
  | _ => cases h

theorem references_declared {s : Stmt} {r : Routine} (h : r ∈ s.routines) : r.references.Sublist s.references := by
  cases s with
  | function declared =>
    cases List.mem_singleton.mp h
    exact List.Sublist.refl _
  | classDecl name parent methods =>
    have hmethods : r.references.Sublist (Routine.allReferences methods) := by
      rw [allReferences_routines]
      exact sublist_flatten h _
    cases parent with
    | none => exact hmethods
    | some parent => exact hmethods.trans (List.sublist_append_right _ _)
  | _ => cases h

/-- The references of a part are among those of the whole, in their order. -/
theorem references_part {t part : Tree} (h : part ∈ t.parts) : part.references.Sublist t.references := by
  match t with
  | expr e =>
    rcases List.mem_append.mp h with h | h <;> obtain ⟨inner, hmem, rfl⟩ := List.mem_map.mp h
    · exact references_operand hmem
    · cases e with
      | lambda made =>
        cases List.mem_singleton.mp hmem
        exact List.Sublist.refl _
      | _ => cases hmem
  | stmt s =>
    simp only [parts, List.mem_append, List.mem_map] at h
    rcases h with ((⟨e, hmem, rfl⟩ | ⟨branch, hmem, rfl⟩) | ⟨inner, hmem, rfl⟩) | ⟨r, hmem, rfl⟩
    · exact references_expression hmem
    · exact references_branch hmem
    · exact references_inner hmem
    · exact references_declared hmem
  | routine ⟨name, params, body⟩ =>
    obtain ⟨s, hmem, rfl⟩ := List.mem_map.mp h
    show s.references.Sublist (Stmt.allReferences body)
    rw [allReferences_stmts]
    exact sublist_flatten hmem _

/-- Where the references of a tree differ in their identities, they do so at each of its nodes. -/
theorem Distinct.everywhere {t : Tree} (h : t.Distinct) : t.Everywhere Distinct := by
  intro u hu
  induction hu with
  | self => exact h
  | within hpart _ ih => exact ih (((references_part hpart).map _).nodup h)

end Tree

end Treewalk
