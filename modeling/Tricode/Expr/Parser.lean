import Tricode.Expr
import Tricode.Parser

/-!
# Parsing expressions

From loose to tight: assignment, six levels of binary operators, prefix operators, calls, and what
stands by itself. Binary operators group to the left, assignments and prefix operators to the right.

Whatever can contain an expression again (a parenthesis, an argument list, the right side of an
assignment) takes the parser for what stands inside as an argument, `inner`, which is `none` when
nesting has used up its room. The levels are therefore not recursive, and `Parser.expression` is a
recursion on the room alone.

A compound expression is built with its depth, which is taken from the depths of its parts; the
parser fails when that passes `Parser.maxDepth`.
-/

namespace Tricode

/-- An expression together with the depth that was recorded when it was built. -/
structure Measured where
  expr : Expr
  depth : Nat

namespace Parser

variable {σ ε δ : Type} [Source σ] [Setting σ ε δ]

/-- An expression without parts. -/
def leaf (e : Expr) : Measured := ⟨e, 0⟩

/-- A compound expression whose deepest part has depth `below`. If it is too deep, `t` is to
blame. -/
def compound (e : Expr) (below : Nat) (t : Token) : Reading σ ε Measured :=
  if below + 1 > maxDepth then failAt (.nestedTooDeeply .expression) t else pure ⟨e, below + 1⟩

/-- The keywords that are literals. -/
def truthWords : List String := ["true", "false"]

/-- A literal, a name, or an expression in parentheses. -/
def primary (inner : Option (Reading σ ε Measured)) : Reading σ ε Measured := do
  let t ← peek
  if t.isKeyword truthWords then do
    skip
    pure (leaf (.literal .bool t.text t.pos))
  else match t.tag with
    | .intLiteral => do
      skip
      pure (leaf (.literal .int t.text t.pos))
    | .floatLiteral => do
      skip
      pure (leaf (.literal .float t.text t.pos))
    | .identifier => do
      skip
      pure (leaf (.ident t.text t.pos))
    | .leftParen => do
      skip
      let e ← nested .expression inner t id
      let _ ← expect .rightParen (.expected .closeAfterExpression)
      pure e
    | _ => failAt (.expected .expression) t

/-- The arguments of a call behind its opening parenthesis `paren`, and the call itself. -/
def arguments (inner : Option (Reading σ ε Measured)) (callee : Measured) (paren : Token) :
    Reading σ ε Measured := do
  let args ← nested .expression inner paren fun expression => do
    if ← check .rightParen then pure [] else commaSeparated expression
  let _ ← expect .rightParen (.expected .closeAfterArguments)
  let below := args.foldl (fun d arg => max d arg.depth) callee.depth
  compound (.call callee.expr (args.map Measured.expr) callee.expr.pos) below paren

/-- What stands by itself, with any number of argument lists behind it. -/
def call (inner : Option (Reading σ ε Measured)) : Reading σ ε Measured := do
  let callee ← primary inner
  loop (fun callee => do
    match ← accept [.leftParen] with
    | some paren => some <$> arguments inner callee paren
    | none => pure none) callee

/-- A call behind any number of prefix operators. The operator next to the call binds first. -/
def unary (inner : Option (Reading σ ε Measured)) : Reading σ ε Measured := do
  let ops ← many (accept [.logicalNot, .minus])
  let operand ← call inner
  ops.reverse.foldlM
    (fun operand op => compound (.unary op.text operand.expr op.pos) operand.depth op) operand

/-- Operands with operators of one level between them, grouped to the left. -/
def chain (ops : List Tag) (operand : Reading σ ε Measured) : Reading σ ε Measured := do
  let first ← operand
  loop (fun left => do
    match ← accept ops with
    | some op => do
      let right ← operand
      some <$> compound (.binary op.text left.expr right.expr op.pos)
        (max left.depth right.depth) op
    | none => pure none) first

/-- The levels of binary operators, loosest first. -/
def levels : List (List Tag) :=
  [[.logicalOr],
   [.logicalAnd],
   [.equal, .notEqual],
   [.lessThan, .greaterThan, .lessEqual, .greaterEqual],
   [.plus, .minus],
   [.multiply, .divide]]

/-- An expression built with the operators of these levels. -/
def binary (inner : Option (Reading σ ε Measured)) : List (List Tag) → Reading σ ε Measured
  | [] => unary inner
  | ops :: tighter => chain ops (binary inner tighter)

/-- An expression, perhaps the target of an assignment. The value is parsed before the target is
looked at; only a name can be assigned to. -/
def assignment (inner : Option (Reading σ ε Measured)) : Reading σ ε Measured := do
  let target ← binary inner levels
  match ← accept [.assign] with
  | none => pure target
  | some sign => do
    let value ← nested .expression inner sign id
    match target.expr with
    | .ident name pos => compound (.assign name value.expr pos) value.depth sign
    | _ => failAt .invalidTarget sign

/-- An expression, inside which constructs may be nested `room` levels deep. -/
def expression : (room : Nat) → Reading σ ε Measured
  | 0 => assignment none
  | room + 1 => assignment (some (expression room))

/-- The parser for what stands one level further in. -/
def inside : (room : Nat) → Option (Reading σ ε Measured)
  | 0 => none
  | room + 1 => some (expression room)

/-- An `expression` is an `assignment` whose parts are parsed with one level of room less. -/
theorem expression_eq (room : Nat) :
    (expression room : Reading σ ε Measured) = assignment (inside room) := by
  cases room <;> rfl

end Parser

end Tricode
