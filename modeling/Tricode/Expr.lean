import Tricode.Position

/-!
# Expressions

Literals keep their spelling, and operators are kept by the text of their token. An assignment
stands where its target stands, so it has one position for both.

`Expr.depth` is the number of compound expressions on the longest way from an expression down to a
leaf; parentheses leave no trace in the tree and so do not count.
-/

namespace Tricode

/-- What a literal denotes. -/
inductive LiteralKind where
  | int
  | float
  | bool
deriving DecidableEq, Repr

/-- An expression. -/
inductive Expr where
  | literal (kind : LiteralKind) (text : String) (pos : Pos)
  | ident (name : String) (pos : Pos)
  | unary (op : String) (operand : Expr) (pos : Pos)
  | binary (op : String) (left right : Expr) (pos : Pos)
  | call (callee : Expr) (args : List Expr) (pos : Pos)
  | assign (target : String) (value : Expr) (pos : Pos)
deriving Repr

namespace Expr

/-- Where an expression stands: a literal or a name at its token, an operation at its operator, a
call at its callee and an assignment at its target. -/
def pos : Expr → Pos
  | literal _ _ p => p
  | ident _ p => p
  | unary _ _ p => p
  | binary _ _ _ p => p
  | call _ _ p => p
  | assign _ _ p => p

mutual

/-- The number of compound expressions on the longest way down to a leaf. -/
def depth : Expr → Nat
  | literal .. => 0
  | ident .. => 0
  | unary _ e _ => e.depth + 1
  | binary _ l r _ => max l.depth r.depth + 1
  | call f args _ => max f.depth (depths args) + 1
  | assign _ e _ => e.depth + 1

/-- The greatest depth in a list. -/
def depths : List Expr → Nat
  | [] => 0
  | e :: es => max e.depth (depths es)

end

end Expr

end Tricode
