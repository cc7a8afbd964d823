import Tricode.Program

/-!
# Nodes

A node is a piece of a program without regard to where it may stand: one type for expressions,
statements, functions and programs. Checking and lowering work on nodes, so that they can be asked
about any tree, also one that no source text has. A place for a node may be empty, which is the node
`absent`; a node of the wrong sort in some place is a `Fault` that names the node's kind.

Every program is a node (`Program.toNode`), and the nodes of programs have no faults of shape.
-/

namespace Tricode

/-- The kinds of nodes. -/
inductive Kind where
  | integerLiteral
  | floatLiteral
  | booleanLiteral
  | identifier
  | unary
  | binary
  | call
  | assignment
  | expression
  | declaration
  | block
  | conditional
  | loop
  | ret
  | parameter
  | parameters
  | function
  | program
deriving DecidableEq, Repr

namespace Kind

/-- All kinds. -/
def all : List Kind :=
  [integerLiteral, floatLiteral, booleanLiteral, identifier, unary, binary, call, assignment,
    expression, declaration, block, conditional, loop, ret, parameter, parameters, function,
    program]

/-- The name under which a kind is listed. -/
def name : Kind → String
  | integerLiteral => "IntegerLiteral"
  | floatLiteral => "FloatLiteral"
  | booleanLiteral => "BooleanLiteral"
  | identifier => "Identifier"
  | unary => "UnaryExpression"
  | binary => "BinaryExpression"
  | call => "CallExpression"
  | assignment => "Assignment"
  | expression => "ExpressionStatement"
  | declaration => "VariableDeclaration"
  | block => "Block"
  | conditional => "IfStatement"
  | loop => "WhileStatement"
  | ret => "ReturnStatement"
  | parameter => "Parameter"
  | parameters => "ParameterList"
  | function => "FunctionDeclaration"
  | program => "Program"

/-- The kind of a given name. -/
def ofName? (name : String) : Option Kind :=
  all.find? fun kind => kind.name == name

end Kind

/-- A node. -/
inductive Node where
  /-- No node. -/
  | absent
  | literal (kind : LiteralKind) (text : String) (pos : Pos)
  | ident (name : String) (pos : Pos)
  | unary (op : String) (operand : Node) (pos : Pos)
  | binary (op : String) (left right : Node) (pos : Pos)
  | call (callee : Node) (args : List Node) (pos : Pos)
  | assign (target value : Node) (pos : Pos)
  | expr (e : Node) (pos : Pos)
  | declare (type : Ty) (name : String) (init : Node) (pos : Pos)
  | block (statements : List Node) (pos : Pos)
  | conditional (cond body alternative : Node) (pos : Pos)
  | loop (cond body : Node) (pos : Pos)
  | ret (value : Node) (pos : Pos)
  | param (type : Ty) (name : String) (pos : Pos)
  | params (params : List Node) (pos : Pos)
  | function (result : Ty) (name : String) (params : List Node) (body : Node) (pos : Pos)
  | program (functions : List Node) (pos : Pos)
deriving Repr, Inhabited

/-- The kind of node that a literal is. -/
def LiteralKind.kind : LiteralKind → Kind
  | int => .integerLiteral
  | float => .floatLiteral
  | bool => .booleanLiteral

/-- What a tree made by hand can do wrong. A kind of `none` stands for the absent node. -/
inductive Fault where
  /-- The node has no type. -/
  | untyped (kind : Option Kind)
  /-- There is no code for the node. -/
  | unlowered (kind : Option Kind)
  /-- A name is wanted of a node that has none. -/
  | nameless (kind : Option Kind)
  /-- A parameter's type is wanted of a node that is no parameter. -/
  | noParameter (kind : Option Kind)
  /-- A line is to be written for the absent node. -/
  | unlisted
  /-- The current scope does not exist. -/
  | noScope (name : String)
deriving DecidableEq, Repr

namespace Node

/-- The kind of a node; the absent node has none. -/
def kind? : Node → Option Kind
  | absent => none
  | literal kind .. => some kind.kind
  | ident .. => some .identifier
  | unary .. => some .unary
  | binary .. => some .binary
  | call .. => some .call
  | assign .. => some .assignment
  | expr .. => some .expression
  | declare .. => some .declaration
  | block .. => some .block
  | conditional .. => some .conditional
  | loop .. => some .loop
  | ret .. => some .ret
  | param .. => some .parameter
  | params .. => some .parameters
  | function .. => some .function
  | program .. => some .program

/-- Where a node stands. The absent node stands nowhere, which is line and column 0. -/
def pos : Node → Pos
  | absent => ⟨0, 0⟩
  | literal _ _ p => p
  | ident _ p => p
  | unary _ _ p => p
  | binary _ _ _ p => p
  | call _ _ p => p
  | assign _ _ p => p
  | expr _ p => p
  | declare _ _ _ p => p
  | block _ p => p
  | conditional _ _ _ p => p
  | loop _ _ p => p
  | ret _ p => p
  | param _ _ p => p
  | params _ p => p
  | function _ _ _ _ p => p
  | program _ p => p

/-- Whether there is no node. -/
def isAbsent : Node → Bool
  | absent => true
  | _ => false

/-- The name of a node that has one. -/
def name : Node → Except Fault String
  | ident name _ => .ok name
  | declare _ name _ _ => .ok name
  | param _ name _ => .ok name
  | function _ name _ _ _ => .ok name
  | node => .error (.nameless node.kind?)

/-- The parameter that a node describes. A node without a name fails for its name first. -/
def asParam : Node → Except Fault Param
  | param type name pos => .ok ⟨type, name, pos⟩
  | node => do
    let _ ← node.name
    .error (.noParameter node.kind?)

end Node

/-! ### Programs as nodes -/

namespace Expr

mutual

/-- An expression as a node. -/
def toNode : Expr → Node
  | literal kind text pos => .literal kind text pos
  | ident name pos => .ident name pos
  | unary op e pos => .unary op e.toNode pos
  | binary op l r pos => .binary op l.toNode r.toNode pos
  | call f args pos => .call f.toNode (toNodes args) pos
  | assign target e pos => .assign (.ident target pos) e.toNode pos

/-- Expressions as nodes. -/
def toNodes : List Expr → List Node
  | [] => []
  | e :: es => e.toNode :: toNodes es

end

theorem toNodes_eq_map (es : List Expr) : toNodes es = es.map toNode := by
  induction es with
  | nil => rfl
  | cons e es ih => rw [toNodes, ih, List.map_cons]

end Expr

/-- An expression that need not be there, as a node. -/
def Node.ofExpr? : Option Expr → Node
  | some e => e.toNode
  | none => .absent

mutual

/-- A statement as a node. -/
def Stmt.toNode : Stmt → Node
  | .expr e pos => .expr e.toNode pos
  | .declare type name init pos => .declare type name (.ofExpr? init) pos
  | .ifThen cond body pos => .conditional cond.toNode body.toNode .absent pos
  | .ifElse cond body alternative pos =>
    .conditional cond.toNode body.toNode alternative.toNode pos
  | .loop cond body pos => .loop cond.toNode body.toNode pos
  | .ret value pos => .ret (.ofExpr? value) pos

/-- A block as a node. -/
def Block.toNode : Block → Node
  | .mk statements pos => .block (Stmt.toNodes statements) pos

/-- Statements as nodes. -/
def Stmt.toNodes : List Stmt → List Node
  | [] => []
  | s :: ss => s.toNode :: Stmt.toNodes ss

end

theorem Stmt.toNodes_eq_map (ss : List Stmt) : Stmt.toNodes ss = ss.map Stmt.toNode := by
  induction ss with
  | nil => rfl
  | cons s ss ih => rw [Stmt.toNodes, ih, List.map_cons]

/-- A parameter as a node. -/
def Param.toNode (p : Param) : Node :=
  .param p.type p.name p.pos

/-- A function as a node. -/
def Function.toNode (f : Function) : Node :=
  .function f.result f.name (f.params.map Param.toNode) f.body.toNode f.pos

/-- A program as a node. -/
def Program.toNode (p : Program) : Node :=
  .program (p.functions.map Function.toNode) p.pos

end Tricode
