import Tricode.Json
import Tricode.Node

/-!
# Outlines

An outline is the uniform view of a node in which trees are shown and handed on: the kind, perhaps a
value and a type, the children, the position. In an outline a function has two children, a list of
its parameters, which stands where the function stands, and its body.
-/

namespace Tricode

/-- The uniform view of a node. -/
inductive Outline where
  /-- The view of the absent node. -/
  | absent
  | node (kind : Kind) (value : Option String) (type : Option Ty) (children : List Outline)
      (pos : Pos)
deriving Repr

namespace Node

mutual

/-- The outline of a node. It fails where an assignment's target has no name, at the first such
assignment, counted from the root and from left to right. -/
def outline : Node → Except Fault Outline
  | absent => pure .absent
  | literal kind text pos => pure (.node kind.kind (some text) none [] pos)
  | ident name pos => pure (.node .identifier (some name) none [] pos)
  | unary op e pos => do
    pure (.node .unary (some op) none [← e.outline] pos)
  | binary op l r pos => do
    pure (.node .binary (some op) none [← l.outline, ← r.outline] pos)
  | call f args pos => do
    pure (.node .call none none ((← f.outline) :: (← outlines args)) pos)
  | assign target e pos => do
    let name ← target.name
    pure (.node .assignment (some name) none [← target.outline, ← e.outline] pos)
  | expr e pos => do
    pure (.node .expression none none [← e.outline] pos)
  | declare type name init pos => do
    let children ← init.outline
    pure (.node .declaration (some name) (some type) (if init.isAbsent then [] else [children]) pos)
  | block statements pos => do
    pure (.node .block none none (← outlines statements) pos)
  | conditional cond body alternative pos => do
    let cond ← cond.outline
    let body ← body.outline
    let other ← alternative.outline
    pure (.node .conditional none none
      (if alternative.isAbsent then [cond, body] else [cond, body, other]) pos)
  | loop cond body pos => do
    pure (.node .loop none none [← cond.outline, ← body.outline] pos)
  | ret value pos => do
    let child ← value.outline
    pure (.node .ret none none (if value.isAbsent then [] else [child]) pos)
  | param type name pos => pure (.node .parameter (some name) (some type) [] pos)
  | params ps pos => do
    pure (.node .parameters none none (← outlines ps) pos)
  | function result name ps body pos => do
    let list := Outline.node .parameters none none (← outlines ps) pos
    pure (.node .function (some name) (some result) [list, ← body.outline] pos)
  | program functions pos => do
    pure (.node .program none none (← outlines functions) pos)

/-- The outlines of nodes. -/
def outlines : List Node → Except Fault (List Outline)
  | [] => pure []
  | n :: ns => do
    let first ← n.outline
    let rest ← outlines ns
    pure (first :: rest)

end

end Node

/-- The outline of a program. A program's assignments have names for targets, so it has one. -/
def Program.outline (p : Program) : Outline :=
  p.toNode.outline.toOption.getD .absent

namespace Outline

/-- The line of a node in a listing: the kind, the value in parentheses, the type behind a colon. -/
def label (kind : Kind) (value : Option String) (type : Option Ty) : String :=
  kind.name ++ (value.elim "" fun v => s!" ({v})") ++ (type.elim "" fun t => s!" : {t.name}")

/-- Two blanks for each level; a negative level has none. -/
def indent (level : Int) : String :=
  String.ofList (List.replicate (2 * level.toNat) ' ')

mutual

/-- The listing of a tree, a line for each node, children below and two blanks to the right of their
parent. The absent node has no line. -/
def lines (level : Int) : Outline → Except Fault (List String)
  | absent => .error .unlisted
  | node kind value type children _ => do
    let below ← linesAll (level + 1) children
    pure ((indent level ++ label kind value type) :: below)

/-- The listings of trees one below the other. -/
def linesAll (level : Int) : List Outline → Except Fault (List String)
  | [] => pure []
  | o :: os => do
    let first ← lines level o
    let rest ← linesAll level os
    pure (first ++ rest)

end

mutual

/-- An outline as an object; the absent node is null. A value or a type that is not there has no
field. -/
def toJson : Outline → Json
  | absent => .null
  | node kind value type children pos =>
    .object ([("type", .text kind.name)]
      ++ (value.elim [] fun v => [("value", .text v)])
      ++ (type.elim [] fun t => [("dataType", .text t.name)])
      ++ [("children", .list (toJsons children))]
      ++ pos.jsonFields)

/-- Outlines as objects. -/
def toJsons : List Outline → List Json
  | [] => []
  | o :: os => o.toJson :: toJsons os

end

end Outline

end Tricode
