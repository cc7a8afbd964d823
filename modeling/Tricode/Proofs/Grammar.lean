import Tricode.Program
import Tricode.Token

/-!
# The grammar

Which lists of tokens are programs, and the tree that each of them denotes:

```
program     := function*
function    := type IDENTIFIER "(" params? ")" block
params      := vtype IDENTIFIER ("," vtype IDENTIFIER)*
block       := "{" statement* "}"
statement   := vtype IDENTIFIER ("=" expression)? ";"
             | "if" "(" expression ")" block ("else" block)?
             | "while" "(" expression ")" block
             | "return" expression? ";"
             | expression ";"
expression  := assignment
assignment  := logical_or "=" assignment | logical_or
logical_or  := logical_and ("||" logical_and)*
logical_and := equality ("&&" equality)*
equality    := relational (("=="|"!=") relational)*
relational  := additive (("<"|">"|"<="|">=") additive)*
additive    := multiplicative (("+"|"-") multiplicative)*
multiplicative := unary (("*"|"/") unary)*
unary       := ("!"|"-") unary | call
call        := primary ("(" (expression ("," expression)*)? ")")*
primary     := "true" | "false" | INT_LITERAL | FLOAT_LITERAL | IDENTIFIER | "(" expression ")"
```

The left side of an assignment must denote an identifier. Repetition is written as left recursion
where the tree groups to the left: a phrase of a level of binary operators is a phrase of the same
level, an operator of the level and a phrase of the next tighter level, or just the latter.

All relations carry the number of blocks, parentheses, argument lists and right sides of assignments
that may be nested in one another inside the tokens. Going into one of them takes one off.
-/

namespace Tricode

namespace Grammar

/-! ### Lists -/

/-- Items one behind the other. -/
inductive Sequence {α : Type} (item : List Token → α → Prop) : List Token → List α → Prop where
  | nil : Sequence item [] []
  | cons {w v : List Token} {a : α} {as : List α} (first : item w a) (rest : Sequence item v as) :
    Sequence item (w ++ v) (a :: as)

/-- One item or more, with commas between them. -/
inductive CommaSeparated {α : Type} (item : List Token → α → Prop) :
    List Token → List α → Prop where
  | one {w : List Token} {a : α} (last : item w a) : CommaSeparated item w [a]
  | more {comma : Token} {w v : List Token} {a : α} {as : List α} (first : item w a)
    (hcomma : comma.tag = .comma) (rest : CommaSeparated item v as) :
    CommaSeparated item (w ++ comma :: v) (a :: as)

/-! ### Expressions -/

/-- The categories of expressions, loosest first. -/
inductive Category where
  | assignment
  | logicalOr
  | logicalAnd
  | equality
  | relational
  | additive
  | multiplicative
  | unary
  | call
  | primary
deriving DecidableEq, Repr

namespace Category

/-- The category next to a category, whose phrases bind tighter. Nothing binds tighter than what
stands by itself. -/
def tighter : Category → Category
  | assignment => logicalOr
  | logicalOr => logicalAnd
  | logicalAnd => equality
  | equality => relational
  | relational => additive
  | additive => multiplicative
  | multiplicative => unary
  | unary => call
  | call => primary
  | primary => primary

/-- The binary operators of a category. -/
def operators : Category → List Tag
  | logicalOr => [.logicalOr]
  | logicalAnd => [.logicalAnd]
  | equality => [.equal, .notEqual]
  | relational => [.lessThan, .greaterThan, .lessEqual, .greaterEqual]
  | additive => [.plus, .minus]
  | multiplicative => [.multiply, .divide]
  | _ => []

end Category

mutual

/-- The tokens are a phrase of the category and denote the expression. A literal and a name stand at
their token, an operation at its operator, a call at its callee and an assignment at its target. -/
inductive Phrase : Nat → Category → List Token → Expr → Prop where
  | truth {n : Nat} {t : Token} (ht : t.isKeyword ["true", "false"] = true) :
    Phrase n .primary [t] (.literal .bool t.text t.pos)
  | int {n : Nat} {t : Token} (ht : t.tag = .intLiteral) :
    Phrase n .primary [t] (.literal .int t.text t.pos)
  | float {n : Nat} {t : Token} (ht : t.tag = .floatLiteral) :
    Phrase n .primary [t] (.literal .float t.text t.pos)
  | name {n : Nat} {t : Token} (ht : t.tag = .identifier) :
    Phrase n .primary [t] (.ident t.text t.pos)
  | paren {n : Nat} {l r : Token} {w : List Token} {e : Expr} (hl : l.tag = .leftParen)
    (inner : Phrase n .assignment w e) (hr : r.tag = .rightParen) :
    Phrase (n + 1) .primary (l :: w ++ [r]) e
  | callNone {n : Nat} {l r : Token} {w : List Token} {f : Expr} (callee : Phrase (n + 1) .call w f)
    (hl : l.tag = .leftParen) (hr : r.tag = .rightParen) :
    Phrase (n + 1) .call (w ++ [l, r]) (.call f [] f.pos)
  | call {n : Nat} {l r : Token} {w v : List Token} {f : Expr} {args : List Expr}
    (callee : Phrase (n + 1) .call w f) (hl : l.tag = .leftParen) (inner : Arguments n v args)
    (hr : r.tag = .rightParen) :
    Phrase (n + 1) .call (w ++ (l :: v ++ [r])) (.call f args f.pos)
  | unary {n : Nat} {op : Token} {w : List Token} {e : Expr} (hop : op.tag ∈ [.logicalNot, .minus])
    (operand : Phrase n .unary w e) : Phrase n .unary (op :: w) (.unary op.text e op.pos)
  | binary {n : Nat} {c : Category} {op : Token} {w v : List Token} {l r : Expr}
    (left : Phrase n c w l) (hop : op.tag ∈ c.operators) (right : Phrase n c.tighter v r) :
    Phrase n c (w ++ op :: v) (.binary op.text l r op.pos)
  | assign {n : Nat} {sign : Token} {w v : List Token} {x : String} {p : Pos} {e : Expr}
    (target : Phrase (n + 1) .logicalOr w (.ident x p)) (hsign : sign.tag = .assign)
    (value : Phrase n .assignment v e) :
    Phrase (n + 1) .assignment (w ++ sign :: v) (.assign x e p)
  | tighter {n : Nat} {c : Category} {w : List Token} {e : Expr} (hc : c ≠ .primary)
    (inner : Phrase n c.tighter w e) : Phrase n c w e

/-- The tokens are arguments, one or more, and denote the expressions. -/
inductive Arguments : Nat → List Token → List Expr → Prop where
  | one {n : Nat} {w : List Token} {e : Expr} (last : Phrase n .assignment w e) :
    Arguments n w [e]
  | more {n : Nat} {comma : Token} {w v : List Token} {e : Expr} {es : List Expr}
    (first : Phrase n .assignment w e) (hcomma : comma.tag = .comma) (rest : Arguments n v es) :
    Arguments n (w ++ comma :: v) (e :: es)

end

/-- The tokens denote the expression, on whose ways down there are at most 200 compound
expressions. -/
def Expression (n : Nat) (w : List Token) (e : Expr) : Prop :=
  Phrase n .assignment w e ∧ e.depth ≤ 200

/-! ### Statements -/

mutual

/-- The tokens denote the statement, which stands at the first of them. -/
inductive Statement : Nat → List Token → Stmt → Prop where
  | declare {n : Nat} {type name semi : Token}
    (htype : type.isKeyword ["int", "float", "bool"] = true) (hname : name.tag = .identifier)
    (hsemi : semi.tag = .semicolon) :
    Statement n [type, name, semi] (.declare (.ofName type.text) name.text none type.pos)
  | init {n : Nat} {type name sign semi : Token} {w : List Token} {e : Expr}
    (htype : type.isKeyword ["int", "float", "bool"] = true) (hname : name.tag = .identifier)
    (hsign : sign.tag = .assign) (value : Expression n w e) (hsemi : semi.tag = .semicolon) :
    Statement n (type :: name :: sign :: w ++ [semi])
      (.declare (.ofName type.text) name.text (some e) type.pos)
  | ifThen {n : Nat} {word l r : Token} {w v : List Token} {e : Expr} {b : Tricode.Block}
    (hword : word.isKeyword ["if"] = true) (hl : l.tag = .leftParen) (cond : Expression n w e)
    (hr : r.tag = .rightParen) (body : Block n v b) :
    Statement n (word :: l :: w ++ r :: v) (.ifThen e b word.pos)
  | ifElse {n : Nat} {word l r other : Token} {w v u : List Token} {e : Expr} {b a : Tricode.Block}
    (hword : word.isKeyword ["if"] = true) (hl : l.tag = .leftParen) (cond : Expression n w e)
    (hr : r.tag = .rightParen) (body : Block n v b) (hother : other.isKeyword ["else"] = true)
    (alternative : Block n u a) :
    Statement n (word :: l :: w ++ r :: v ++ other :: u) (.ifElse e b a word.pos)
  | loop {n : Nat} {word l r : Token} {w v : List Token} {e : Expr} {b : Tricode.Block}
    (hword : word.isKeyword ["while"] = true) (hl : l.tag = .leftParen) (cond : Expression n w e)
    (hr : r.tag = .rightParen) (body : Block n v b) :
    Statement n (word :: l :: w ++ r :: v) (.loop e b word.pos)
  | ret {n : Nat} {word semi : Token} (hword : word.isKeyword ["return"] = true)
    (hsemi : semi.tag = .semicolon) : Statement n [word, semi] (.ret none word.pos)
  | retValue {n : Nat} {word semi : Token} {w : List Token} {e : Expr}
    (hword : word.isKeyword ["return"] = true) (value : Expression n w e)
    (hsemi : semi.tag = .semicolon) : Statement n (word :: w ++ [semi]) (.ret (some e) word.pos)
  | expr {n : Nat} {t semi : Token} {w : List Token} {e : Expr} (inner : Expression n (t :: w) e)
    (hsemi : semi.tag = .semicolon) : Statement n (t :: w ++ [semi]) (.expr e t.pos)

/-- The tokens denote the block, which stands at its opening brace. -/
inductive Block : Nat → List Token → Tricode.Block → Prop where
  | mk {n : Nat} {l r : Token} {w : List Token} {ss : List Stmt} (hl : l.tag = .leftBrace)
    (inner : Statements n w ss) (hr : r.tag = .rightBrace) :
    Block (n + 1) (l :: w ++ [r]) (.mk ss l.pos)

/-- The tokens denote the statements, one behind the other. -/
inductive Statements : Nat → List Token → List Stmt → Prop where
  | nil {n : Nat} : Statements n [] []
  | cons {n : Nat} {w v : List Token} {s : Stmt} {ss : List Stmt} (first : Statement n w s)
    (rest : Statements n v ss) : Statements n (w ++ v) (s :: ss)

end

/-! ### Functions and programs -/

/-- The tokens denote the parameter, which stands at its type. -/
inductive Parameter : List Token → Param → Prop where
  | mk {type name : Token} (htype : type.isKeyword ["int", "float", "bool"] = true)
    (hname : name.tag = .identifier) :
    Parameter [type, name] ⟨.ofName type.text, name.text, type.pos⟩

/-- The tokens denote the parameters, of which there may be none. -/
inductive Parameters : List Token → List Param → Prop where
  | none : Parameters [] []
  | some {w : List Token} {ps : List Param} (inner : CommaSeparated Parameter w ps) :
    Parameters w ps

/-- The tokens denote the function, which stands at its type. -/
inductive Function (n : Nat) : List Token → Tricode.Function → Prop where
  | mk {type name l r : Token} {w v : List Token} {ps : List Param} {b : Tricode.Block}
    (htype : type.isKeyword ["int", "float", "bool", "void"] = true)
    (hname : name.tag = .identifier) (hl : l.tag = .leftParen) (params : Parameters w ps)
    (hr : r.tag = .rightParen) (body : Block n v b) :
    Function n (type :: name :: l :: w ++ r :: v)
      ⟨.ofName type.text, name.text, ps, b, type.pos⟩

/-- The tokens in front of the end token `stop` denote the program, with at most 50 constructs
nested in one another. The program stands at the first token, which may be the end token. -/
def Derives (ts : List Token) (stop : Token) (p : Program) : Prop :=
  Sequence (Function 50) ts p.functions ∧ p.pos = (ts.headD stop).pos

end Grammar

end Tricode
