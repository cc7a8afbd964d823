import Tricode.Expr
import Tricode.Ty

/-!
# Statements, functions and programs
-/

namespace Tricode

mutual

/-- A statement. -/
inductive Stmt where
  | expr (e : Expr) (pos : Pos)
  | declare (type : Ty) (name : String) (init : Option Expr) (pos : Pos)
  | ifThen (cond : Expr) (body : Block) (pos : Pos)
  | ifElse (cond : Expr) (body alternative : Block) (pos : Pos)
  | loop (cond : Expr) (body : Block) (pos : Pos)
  | ret (value : Option Expr) (pos : Pos)
deriving Repr

/-- Statements in braces. The position is that of the opening brace. -/
inductive Block where
  | mk (statements : List Stmt) (pos : Pos)
deriving Repr

end

/-- A parameter of a function. -/
structure Param where
  type : Ty
  name : String
  pos : Pos
deriving DecidableEq, Repr

/-- A function. -/
structure Function where
  result : Ty
  name : String
  params : List Param
  body : Block
  pos : Pos
deriving Repr

/-- A program. The position is that of its first token. -/
structure Program where
  functions : List Function
  pos : Pos
deriving Repr

end Tricode
