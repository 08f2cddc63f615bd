import Treewalk.Grammar.Expression
import Treewalk.Grammar.Statement

/-!
The grammar of programs, apart from any way to read them.

```text
program        → declaration* ;
declaration    → classDecl | funDecl | varDecl | useDecl | statement ;
classDecl      → "class" IDENT ( "<" IDENT )? "{" method* "}" ;
method         → IDENT ( "(" parameters? ")" )? block ;
funDecl        → "fun" IDENT "(" parameters? ")" block ;
varDecl        → "var" IDENT ( "=" expression )? ";" ;
useDecl        → "use" PATH ";" ;
statement      → exprStmt | printStmt | forStmt | ifStmt | whileStmt | breakStmt | returnStmt | block ;
exprStmt       → expression ";" ;
printStmt      → "print" expression ( "," expression )* ";" ;
forStmt        → "for" "(" ( varDecl | exprStmt | ";" ) expression? ";" expression? ")" statement ;
whileStmt      → "while" "(" expression ")" statement ;
ifStmt         → "if" "(" expression ")" statement ( "else" statement )? ;
breakStmt      → "break" ";" ;
returnStmt     → "return" expression? ";" ;
block          → "{" declaration* "}" ;
parameters     → IDENT ( "," IDENT )* ;
expression     → "fun" "(" parameters? ")" block | ternary ;
ternary        → assignment ( "?" equality ":" equality )? ;
assignment     → ( call "." )? IDENT "=" assignment | logicOr ;
logicOr        → logicAnd ( "or" logicAnd )* ;
logicAnd       → equality  ( "and" equality )* ;
equality       → comparison ( ( "!=" | "==" ) comparison )* ;
comparison     → term ( ( ">" | ">=" | "<" | "<=" ) term )* ;
term           → factor ( ( "-" | "+" ) factor )* ;
factor         → unary ( ( "/" | "*" ) unary )* ;
unary          → ( "!" | "-" ) unary | call ;
call           → primary ( "(" arguments? ")" | "." IDENT )* ;
arguments      → expression ( "," expression )* ;
primary        → literal | "this" | "[" ( item ( "," item )* )? "]" | "global" IDENT
               | IDENT ( "++" | "--" | "[" expression "]" )? | "(" expression ")" ;
item           → literal | "-" NUMBER ;
literal        → NUMBER | STRING | "true" | "false" | "nil" ;
```

A derivation takes the tokens of its phrase from the front of those that are ahead. Two rules look at what follows:
a name is a variable only if no increment follows it, and a branch does without `else` only if none follows. Lists of
parameters and of arguments are bounded. Nodes that refer to a binding take their identities from a counter, in the
order in which they are complete; the name on the left of an assignment has taken one before the assignment is seen.
-/

namespace Treewalk.Grammar

/-- A point in a program: the tokens ahead and the identity that the next node gets. -/
structure Point where
  ahead : List Token
  nextId : NodeId

/-- The nonterminals between `assignment` and `call`, from the one that binds least. -/
inductive Tier where
  | logicOr
  | logicAnd
  | equality
  | comparison
  | term
  | factor
  | unary
deriving DecidableEq, Repr

/-- The tiers with operators between operands: the operators, the tier of the operands and the tree of an operator. -/
inductive Chain : Tier → List Symbol → Tier → (Expr → Token → Expr → Expr) → Prop where
  | logicOr : Chain .logicOr [.kwOr] .logicAnd .logical
  | logicAnd : Chain .logicAnd [.kwAnd] .equality .logical
  | equality : Chain .equality [.bangEqual, .equalEqual] .comparison .binary
  | comparison : Chain .comparison [.greater, .greaterEqual, .less, .lessEqual] .term .binary
  | term : Chain .term [.minus, .plus] .factor .binary
  | factor : Chain .factor [.star, .slash] .unary .binary

/-- What can follow a callee: arguments with the parenthesis that closes them, or a property. -/
inductive Suffix where
  | call (paren : Token) (arguments : List Expr)
  | property (name : Token)

/-- An expression with a suffix behind it. -/
def Suffix.apply (inner : Expr) : Suffix → Expr
  | .call paren arguments => .call inner paren arguments
  | .property name => .get inner name

/-- The nonterminals of the grammar, with one for each repetition. -/
inductive Nonterminal where
  | declarations
  | declaration
  | methods
  | method
  | varDecl
  | statement
  | exprStmt
  /-- The first clause of a loop. -/
  | loopStart
  | block
  /-- Parameters in their parentheses. -/
  | parameterList
  | names
  | expression
  | expressions
  | optionalExpression
  | ternary
  | assignment
  | tier (tier : Tier)
  /-- Operators of a tier with their right operands. -/
  | operations (tier : Tier)
  | call
  | suffixes
  | primary
  | items

/-- What a nonterminal is read as. -/
@[reducible] def Nonterminal.Tree : Nonterminal → Type
  | declarations => List Stmt
  | declaration => Stmt
  | methods => List Routine
  | method => Routine
  | varDecl => Stmt
  | statement => Stmt
  | exprStmt => Stmt
  | loopStart => Option Stmt
  | block => List Stmt
  | parameterList => List Token
  | names => List Token
  | expression => Expr
  | expressions => List Expr
  | optionalExpression => Option Expr
  | ternary => Expr
  | assignment => Expr
  | tier _ => Expr
  | operations _ => List (Token × Expr)
  | call => Expr
  | suffixes => List Suffix
  | primary => Expr
  | items => List Literal

/-- The constant that a token is. -/
def literal? (t : Token) : Option Literal :=
  match t.kind with
  | .number value => some (.number value)
  | .string text => some (.string text)
  | .symbol .kwTrue => some (.bool true)
  | .symbol .kwFalse => some (.bool false)
  | .symbol .kwNil => some .nil
  | _ => none

/-- Two equal signs, both plus or both minus, that stand side by side. -/
def IncrementPair (first second : Token) : Prop :=
  ((first.is .plus ∧ second.is .plus) ∨ (first.is .minus ∧ second.is .minus)) ∧ second.offset = first.offset + 1

/-- The tokens do not start with an increment. -/
def NoIncrement (tokens : List Token) : Prop :=
  ∀ first second rest, tokens = first :: second :: rest → ¬IncrementPair first second

/-- The tokens do not start with the given symbol. -/
def NotAhead (s : Symbol) (tokens : List Token) : Prop :=
  ∀ t rest, tokens = t :: rest → ¬t.is s

/-- A phrase is derived: it takes the tokens from the first point to the second one, and is read as the tree. -/
inductive Derives : (n : Nonterminal) → Point → n.Tree → Point → Prop where
  -- Declarations
  | noDeclaration {p} : Derives .declarations p [] p
  | moreDeclarations {p q r first rest} : Derives .declaration p first q → Derives .declarations q rest r →
      Derives .declarations p (first :: rest) r
  | baseClass {keyword name opening closing tokens after i j methods} : keyword.is .kwClass → name.isIdentifier →
      opening.is .leftBrace → Derives .methods ⟨tokens, i⟩ methods ⟨closing :: after, j⟩ → closing.is .rightBrace →
      Derives .declaration ⟨keyword :: name :: opening :: tokens, i⟩ (.classDecl name none methods) ⟨after, j⟩
  | subclass {keyword name less parent opening closing tokens after i j methods} : keyword.is .kwClass →
      name.isIdentifier → less.is .less → parent.isIdentifier → opening.is .leftBrace →
      Derives .methods ⟨tokens, i + 1⟩ methods ⟨closing :: after, j⟩ → closing.is .rightBrace →
      Derives .declaration ⟨keyword :: name :: less :: parent :: opening :: tokens, i⟩
        (.classDecl name (some (.var i parent)) methods) ⟨after, j⟩
  | function {keyword name tokens i q r params body} : keyword.is .kwFun → name.isIdentifier →
      Derives .parameterList ⟨tokens, i⟩ params q → Derives .block q body r →
      Derives .declaration ⟨keyword :: name :: tokens, i⟩ (.function ⟨name, params, body⟩) r
  | variable {p s q} : Derives .varDecl p s q → Derives .declaration p s q
  | library {keyword path semicolon after i} : keyword.is .kwUse → (∃ text, path.kind = .path text) →
      semicolon.is .semicolon →
      Derives .declaration ⟨keyword :: path :: semicolon :: after, i⟩ (.useLibrary keyword path) ⟨after, i⟩
  | plain {p s q} : Derives .statement p s q → Derives .declaration p s q
  | noMethod {p} : Derives .methods p [] p
  | moreMethods {p q r first rest} : Derives .method p first q → Derives .methods q rest r →
      Derives .methods p (first :: rest) r
  | bareMethod {name tokens i q body} : name.isIdentifier → Derives .block ⟨tokens, i⟩ body q →
      Derives .method ⟨name :: tokens, i⟩ ⟨name, [], body⟩ q
  | method {name tokens i q r params body} : name.isIdentifier → Derives .parameterList ⟨tokens, i⟩ params q →
      Derives .block q body r → Derives .method ⟨name :: tokens, i⟩ ⟨name, params, body⟩ r
  | noParameters {opening closing after i} : opening.is .leftParen → closing.is .rightParen →
      Derives .parameterList ⟨opening :: closing :: after, i⟩ [] ⟨after, i⟩
  | parameters {opening closing tokens after i j params} : opening.is .leftParen →
      Derives .names ⟨tokens, i⟩ params ⟨closing :: after, j⟩ → params.length ≤ 255 → closing.is .rightParen →
      Derives .parameterList ⟨opening :: tokens, i⟩ params ⟨after, j⟩
  | lastName {name after i} : name.isIdentifier → Derives .names ⟨name :: after, i⟩ [name] ⟨after, i⟩
  | moreNames {name comma tokens i q rest} : name.isIdentifier → comma.is .comma → Derives .names ⟨tokens, i⟩ rest q →
      Derives .names ⟨name :: comma :: tokens, i⟩ (name :: rest) q
  | bareVariable {keyword name semicolon after i} : keyword.is .kwVar → name.isIdentifier → semicolon.is .semicolon →
      Derives .varDecl ⟨keyword :: name :: semicolon :: after, i⟩ (.varDecl name none) ⟨after, i⟩
  | initializedVariable {keyword name equals semicolon tokens after i j value} : keyword.is .kwVar →
      name.isIdentifier → equals.is .equal → Derives .expression ⟨tokens, i⟩ value ⟨semicolon :: after, j⟩ →
      semicolon.is .semicolon →
      Derives .varDecl ⟨keyword :: name :: equals :: tokens, i⟩ (.varDecl name (some value)) ⟨after, j⟩
  -- Statements
  | exprStmt {p semicolon after j value} : Derives .expression p value ⟨semicolon :: after, j⟩ →
      semicolon.is .semicolon → Derives .exprStmt p (.expression value) ⟨after, j⟩
  | expressionStatement {p s q} : Derives .exprStmt p s q → Derives .statement p s q
  | print {keyword semicolon tokens after i j values} : keyword.is .kwPrint →
      Derives .expressions ⟨tokens, i⟩ values ⟨semicolon :: after, j⟩ → semicolon.is .semicolon →
      Derives .statement ⟨keyword :: tokens, i⟩ (.print keyword values) ⟨after, j⟩
  | noLoopStart {semicolon after i} : semicolon.is .semicolon →
      Derives .loopStart ⟨semicolon :: after, i⟩ none ⟨after, i⟩
  | loopVariable {p s q} : Derives .varDecl p s q → Derives .loopStart p (some s) q
  | loopExpression {p s q} : Derives .exprStmt p s q → Derives .loopStart p (some s) q
  | loop {keyword opening semicolon closing tokens test step after i j k l q initializer condition increment body} :
      keyword.is .kwFor → opening.is .leftParen → Derives .loopStart ⟨tokens, i⟩ initializer ⟨test, j⟩ →
      Derives .optionalExpression ⟨test, j⟩ condition ⟨semicolon :: step, k⟩ → semicolon.is .semicolon →
      Derives .optionalExpression ⟨step, k⟩ increment ⟨closing :: after, l⟩ → closing.is .rightParen →
      Derives .statement ⟨after, l⟩ body q →
      Derives .statement ⟨keyword :: opening :: tokens, i⟩
        (initializer.elim
          (.whileLoop (condition.getD (.literal (.bool true)))
            (increment.elim body fun e => .block [body, .expression e]))
          fun s => .block [s, .whileLoop (condition.getD (.literal (.bool true)))
            (increment.elim body fun e => .block [body, .expression e])]) q
  | whileLoop {keyword opening closing tokens after i j q condition body} : keyword.is .kwWhile →
      opening.is .leftParen → Derives .expression ⟨tokens, i⟩ condition ⟨closing :: after, j⟩ →
      closing.is .rightParen → Derives .statement ⟨after, j⟩ body q →
      Derives .statement ⟨keyword :: opening :: tokens, i⟩ (.whileLoop condition body) q
  | ifOnly {keyword opening closing tokens after i j q condition yes} : keyword.is .kwIf → opening.is .leftParen →
      Derives .expression ⟨tokens, i⟩ condition ⟨closing :: after, j⟩ → closing.is .rightParen →
      Derives .statement ⟨after, j⟩ yes q → NotAhead .kwElse q.ahead →
      Derives .statement ⟨keyword :: opening :: tokens, i⟩ (.ifElse condition yes none) q
  | ifElse {keyword opening closing otherwise tokens after later i j k q condition yes no} : keyword.is .kwIf →
      opening.is .leftParen → Derives .expression ⟨tokens, i⟩ condition ⟨closing :: after, j⟩ →
      closing.is .rightParen → Derives .statement ⟨after, j⟩ yes ⟨otherwise :: later, k⟩ → otherwise.is .kwElse →
      Derives .statement ⟨later, k⟩ no q →
      Derives .statement ⟨keyword :: opening :: tokens, i⟩ (.ifElse condition yes (some no)) q
  | breakLoop {keyword semicolon after i} : keyword.is .kwBreak → semicolon.is .semicolon →
      Derives .statement ⟨keyword :: semicolon :: after, i⟩ (.breakLoop keyword) ⟨after, i⟩
  | returnValue {keyword semicolon tokens after i j value} : keyword.is .kwReturn →
      Derives .optionalExpression ⟨tokens, i⟩ value ⟨semicolon :: after, j⟩ → semicolon.is .semicolon →
      Derives .statement ⟨keyword :: tokens, i⟩ (.returnValue keyword value) ⟨after, j⟩
  | inner {p body q} : Derives .block p body q → Derives .statement p (.block body) q
  | block {opening closing tokens after i j body} : opening.is .leftBrace →
      Derives .declarations ⟨tokens, i⟩ body ⟨closing :: after, j⟩ → closing.is .rightBrace →
      Derives .block ⟨opening :: tokens, i⟩ body ⟨after, j⟩
  -- Expressions
  | lambda {keyword tokens i q r params body} : keyword.is .kwFun → Derives .parameterList ⟨tokens, i⟩ params q →
      Derives .block q body r →
      Derives .expression ⟨keyword :: tokens, i⟩
        (.lambda ⟨⟨.identifier, "anonymous", keyword.line, keyword.offset⟩, params, body⟩) r
  | ternary {p e q} : Derives .ternary p e q → Derives .expression p e q
  | lastExpression {p e q} : Derives .expression p e q → Derives .expressions p [e] q
  | moreExpressions {p comma tokens i q first rest} : Derives .expression p first ⟨comma :: tokens, i⟩ →
      comma.is .comma → Derives .expressions ⟨tokens, i⟩ rest q → Derives .expressions p (first :: rest) q
  | noExpression {p} : Derives .optionalExpression p none p
  | someExpression {p e q} : Derives .expression p e q → Derives .optionalExpression p (some e) q
  | unconditional {p e q} : Derives .assignment p e q → Derives .ternary p e q
  | conditional {p question colon tokens after i j q condition yes no} :
      Derives .assignment p condition ⟨question :: tokens, i⟩ → question.is .question →
      Derives (.tier .equality) ⟨tokens, i⟩ yes ⟨colon :: after, j⟩ → colon.is .colon →
      Derives (.tier .equality) ⟨after, j⟩ no q → Derives .ternary p (.ternary condition question yes no) q
  | assignName {name equals tokens after i j value} : name.isIdentifier → equals.is .equal →
      Derives .assignment ⟨tokens, i + 1⟩ value ⟨after, j⟩ →
      Derives .assignment ⟨name :: equals :: tokens, i⟩ (.assign j name value) ⟨after, j + 1⟩
  | assignProperty {p dot name equals tokens i q object value} :
      Derives .call p object ⟨dot :: name :: equals :: tokens, i⟩ → dot.is .dot → name.isIdentifier →
      equals.is .equal → Derives .assignment ⟨tokens, i⟩ value q → Derives .assignment p (.set object name value) q
  | unassigned {p e q} : Derives (.tier .logicOr) p e q → Derives .assignment p e q
  | chain {tier symbols operand combine p q r first operations} : Chain tier symbols operand combine →
      Derives (.tier operand) p first q → Derives (.operations tier) q operations r →
      Derives (.tier tier) p (operations.foldl (fun left x => combine left x.1 x.2) first) r
  | noOperation {tier p} : Derives (.operations tier) p [] p
  | moreOperations {tier symbols operand combine operator tokens i q r right rest} :
      Chain tier symbols operand combine → (∃ s ∈ symbols, operator.is s) →
      Derives (.tier operand) ⟨tokens, i⟩ right q → Derives (.operations tier) q rest r →
      Derives (.operations tier) ⟨operator :: tokens, i⟩ ((operator, right) :: rest) r
  | unary {operator tokens i q right} : (operator.is .bang ∨ operator.is .minus) →
      Derives (.tier .unary) ⟨tokens, i⟩ right q →
      Derives (.tier .unary) ⟨operator :: tokens, i⟩ (.unary operator right) q
  | operand {p e q} : Derives .call p e q → Derives (.tier .unary) p e q
  | call {p q r callee suffixes} : Derives .primary p callee q → Derives .suffixes q suffixes r →
      Derives .call p (suffixes.foldl Suffix.apply callee) r
  | noSuffix {p} : Derives .suffixes p [] p
  | callNone {opening closing tokens i q rest} : opening.is .leftParen → closing.is .rightParen →
      Derives .suffixes ⟨tokens, i⟩ rest q →
      Derives .suffixes ⟨opening :: closing :: tokens, i⟩ (.call closing [] :: rest) q
  | callSome {opening closing tokens after i j q arguments rest} : opening.is .leftParen →
      Derives .expressions ⟨tokens, i⟩ arguments ⟨closing :: after, j⟩ → arguments.length ≤ 255 →
      closing.is .rightParen → Derives .suffixes ⟨after, j⟩ rest q →
      Derives .suffixes ⟨opening :: tokens, i⟩ (.call closing arguments :: rest) q
  | property {dot name tokens i q rest} : dot.is .dot → name.isIdentifier → Derives .suffixes ⟨tokens, i⟩ rest q →
      Derives .suffixes ⟨dot :: name :: tokens, i⟩ (.property name :: rest) q
  | literal {t after i value} : literal? t = some value →
      Derives .primary ⟨t :: after, i⟩ (.literal value) ⟨after, i⟩
  | this {keyword after i} : keyword.is .kwThis →
      Derives .primary ⟨keyword :: after, i⟩ (.this i keyword) ⟨after, i + 1⟩
  | emptyArray {bracket closing after i} : bracket.is .leftBracket → closing.is .rightBracket →
      Derives .primary ⟨bracket :: closing :: after, i⟩ (.array bracket []) ⟨after, i⟩
  | array {bracket closing tokens after i j items} : bracket.is .leftBracket →
      Derives .items ⟨tokens, i⟩ items ⟨closing :: after, j⟩ → closing.is .rightBracket →
      Derives .primary ⟨bracket :: tokens, i⟩ (.array bracket items) ⟨after, j⟩
  | global {keyword name after i} : keyword.is .kwGlobal → name.isIdentifier →
      Derives .primary ⟨keyword :: name :: after, i⟩ (.global name) ⟨after, i⟩
  | increment {name first second after i} : name.isIdentifier → IncrementPair first second →
      Derives .primary ⟨name :: first :: second :: after, i⟩
        (.assign (i + 1) name (.binary (.var i name) first (.literal (.number 1)))) ⟨after, i + 2⟩
  | subscript {name opening closing tokens after i j index} : name.isIdentifier → opening.is .leftBracket →
      Derives .expression ⟨tokens, i⟩ index ⟨closing :: after, j⟩ → closing.is .rightBracket →
      Derives .primary ⟨name :: opening :: tokens, i⟩ (.subscript j name index) ⟨after, j + 1⟩
  | name {name after i} : name.isIdentifier → NoIncrement after →
      Derives .primary ⟨name :: after, i⟩ (.var i name) ⟨after, i + 1⟩
  | grouping {opening closing tokens after i j inner} : opening.is .leftParen →
      Derives .expression ⟨tokens, i⟩ inner ⟨closing :: after, j⟩ → closing.is .rightParen →
      Derives .primary ⟨opening :: tokens, i⟩ (.grouping inner) ⟨after, j⟩
  | lastItem {t after i value} : literal? t = some value → Derives .items ⟨t :: after, i⟩ [value] ⟨after, i⟩
  | moreItems {t comma tokens i q value rest} : literal? t = some value → comma.is .comma →
      Derives .items ⟨tokens, i⟩ rest q → Derives .items ⟨t :: comma :: tokens, i⟩ (value :: rest) q
  | lastNegative {minus t after i value} : minus.is .minus → t.kind = .number value →
      Derives .items ⟨minus :: t :: after, i⟩ [.number (-value)] ⟨after, i⟩
  | moreNegatives {minus t comma tokens i q value rest} : minus.is .minus → t.kind = .number value →
      comma.is .comma → Derives .items ⟨tokens, i⟩ rest q →
      Derives .items ⟨minus :: t :: comma :: tokens, i⟩ (.number (-value) :: rest) q

/-- A loop with three clauses by which of them are there. -/
theorem loopTree_eq_elim (initializer : Option Stmt) (condition : Expr) (increment : Option Expr) (body : Stmt) :
    loopTree initializer condition increment body =
      initializer.elim (.whileLoop condition (increment.elim body fun e => .block [body, .expression e])) fun s =>
        .block [s, .whileLoop condition (increment.elim body fun e => .block [body, .expression e])] := by
  cases initializer <;> cases increment <;> rfl

end Treewalk.Grammar
