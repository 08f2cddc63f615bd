import Treewalk.Proofs.Grammar.Trees

/-!
The outline of a program: which names it declares, in which scopes, and which names it refers to, in the order in which
the program is gone through. From it one reads off, with no regard to how a program is checked, what each reference means:
the name of the innermost scope around it that has declared one of that spelling so far. A name is told from others of its
spelling by the token that declares it.
-/

namespace Treewalk

/-- What a program does with names. -/
inductive Event where
  | declare (token : Token)
  | refer (reference : Reference)
  | scope (events : List Event)

mutual

/-- What an expression does with names. -/
def Expr.events : Expr → List Event
  | .literal _ => []
  | .array _ _ => []
  | .unary _ right => right.events
  | .binary left _ right => left.events ++ right.events
  | .logical left _ right => left.events ++ right.events
  | .grouping inner => inner.events
  | .var id name => [.refer ⟨.var, id, name⟩]
  | .global _ => []
  | .assign id name value => value.events ++ [.refer ⟨.assign, id, name⟩]
  | .ternary condition _ yes no => condition.events ++ yes.events ++ no.events
  | .call callee _ arguments => callee.events ++ Expr.allEvents arguments
  | .lambda routine => routine.events
  | .get object _ => object.events
  | .set object _ value => value.events ++ object.events
  | .this _ _ => []
  | .subscript id name index => .refer ⟨.index, id, name⟩ :: index.events

def Expr.allEvents : List Expr → List Event
  | [] => []
  | e :: rest => e.events ++ Expr.allEvents rest

/-- What a statement does with names. A variable is declared before its initializer, and the name of a function or class
before what is in it. -/
def Stmt.events : Stmt → List Event
  | .expression value => value.events
  | .print _ values => Expr.allEvents values
  | .varDecl name none => [.declare name]
  | .varDecl name (some value) => .declare name :: value.events
  | .block body => [.scope (Stmt.allEvents body)]
  | .ifElse condition yes none => condition.events ++ yes.events
  | .ifElse condition yes (some no) => condition.events ++ yes.events ++ no.events
  | .whileLoop condition body => condition.events ++ body.events
  | .function routine => .declare routine.name :: routine.events
  | .breakLoop _ => []
  | .returnValue _ none => []
  | .returnValue _ (some value) => value.events
  | .classDecl name none methods => [.declare name, .scope (Routine.allEvents methods)]
  | .classDecl name (some parent) methods => .declare name :: (parent.events ++ [.scope (Routine.allEvents methods)])
  | .useLibrary _ _ => []

def Stmt.allEvents : List Stmt → List Event
  | [] => []
  | s :: rest => s.events ++ Stmt.allEvents rest

/-- A routine has one scope, for its parameters and for what its body declares. -/
def Routine.events : Routine → List Event
  | ⟨_, params, body⟩ => [.scope (params.map .declare ++ Stmt.allEvents body)]

def Routine.allEvents : List Routine → List Event
  | [] => []
  | m :: rest => m.events ++ Routine.allEvents rest

end

/-! ### Scopes -/

/-- The scope with one more name, unless it has one of that spelling. -/
def addName (scope : List Token) (token : Token) : List Token :=
  if scope.any (·.lexeme == token.lexeme) then scope else scope ++ [token]

namespace Event

/-- The names that are declared in the scope in which the events stand. -/
def direct (events : List Event) : List Token :=
  events.filterMap fun
    | .declare token => some token
    | _ => none

/-- The names of that scope; of those that are spelled alike it has the first one. -/
def bindings (events : List Event) : List Token := (direct events).foldl addName []

mutual

/-- The names of each scope within the event, in the order in which the scopes end. -/
def scopes : Event → List (List Token)
  | .scope events => allScopes events ++ [bindings events]
  | _ => []

def allScopes : List Event → List (List Token)
  | [] => []
  | e :: rest => e.scopes ++ allScopes rest

end

end Event

/-! ### Links -/

/-- The names that the scopes around a place have declared so far, the innermost scope first. -/
abbrev Environment := List (List Token)

namespace Environment

/-- One more name in the innermost scope. -/
def declare (env : Environment) (token : Token) : Environment :=
  match env with
  | [] => []
  | scope :: outer => addName scope token :: outer

/-- What a name means: that of the innermost scope that has one of this spelling. Where no scope has one, it is global. -/
def target? (env : Environment) (name : String) : Option Token :=
  env.findSome? fun scope => scope.find? (·.lexeme == name)

end Environment

namespace Event

/-- The environment behind the event. -/
def after (env : Environment) : Event → Environment
  | .declare token => env.declare token
  | _ => env

mutual

/-- The references in the event, with the names that they mean, as far as these are local. -/
def links : Event → Environment → List (Reference × Token)
  | .declare _, _ => []
  | .refer x, env => (env.target? x.token.lexeme).toList.map (x, ·)
  | .scope events, env => allLinks events ([] :: env)

def allLinks : List Event → Environment → List (Reference × Token)
  | [], _ => []
  | e :: rest, env => e.links env ++ allLinks rest (e.after env)

end

/-- The names that references mean. -/
def targets (events : List Event) (env : Environment) : List Token := (allLinks events env).map (·.2)

mutual

/-- All names that the event declares, whatever their scopes. -/
def names : Event → List Token
  | .declare token => [token]
  | .refer _ => []
  | .scope events => allNames events

def allNames : List Event → List Token
  | [] => []
  | e :: rest => e.names ++ allNames rest

end

mutual

/-- The tokens of all names in the event, those that are declared and those that are referred to. -/
def tokens : Event → List Token
  | .declare token => [token]
  | .refer x => [x.token]
  | .scope events => allTokens events

def allTokens : List Event → List Token
  | [] => []
  | e :: rest => e.tokens ++ allTokens rest

end

/-! ### Parts of an outline -/

theorem direct_append (a b : List Event) : direct (a ++ b) = direct a ++ direct b := List.filterMap_append

theorem allLinks_append (a b : List Event) (env : Environment) :
    allLinks (a ++ b) env = allLinks a env ++ allLinks b (a.foldl after env) := by
  induction a generalizing env with
  | nil => rfl
  | cons e rest ih => rw [List.cons_append, allLinks, ih, allLinks, List.append_assoc, List.foldl_cons]

theorem allScopes_append (a b : List Event) : allScopes (a ++ b) = allScopes a ++ allScopes b := by
  induction a with
  | nil => rfl
  | cons e rest ih => rw [List.cons_append, allScopes, ih, allScopes, List.append_assoc]

theorem allNames_append (a b : List Event) : allNames (a ++ b) = allNames a ++ allNames b := by
  induction a with
  | nil => rfl
  | cons e rest ih => rw [List.cons_append, allNames, ih, allNames, List.append_assoc]

theorem allTokens_append (a b : List Event) : allTokens (a ++ b) = allTokens a ++ allTokens b := by
  induction a with
  | nil => rfl
  | cons e rest ih => rw [List.cons_append, allTokens, ih, allTokens, List.append_assoc]

/-- Behind the events the innermost scope has what they declare directly. -/
theorem foldl_after (events : List Event) (scope : List Token) (outer : Environment) :
    events.foldl after (scope :: outer) = (direct events).foldl addName scope :: outer := by
  induction events generalizing scope with
  | nil => rfl
  | cons e rest ih =>
    cases e with
    | declare token => exact ih (addName scope token)
    | refer x => exact ih scope
    | scope inner => exact ih scope

end Event

end Treewalk
