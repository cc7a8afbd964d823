import Tricode.Json.Reader
import Tricode.Node.Outline
import Tricode.Proofs.Names
import Tricode.Proofs.Parser.Trees

/-!
# Reading trees back

The outline of a program keeps everything. From the object that an outline is handed on as, the
outline can be read (`Outline.ofJson?`), and from the outline the program (`Outline.program?`): the
program of the object is the program that the parser found, also where it had to recover
(`ofJson?_toJson_parse`). In particular different programs have different objects, and this is so
even if the order of fields in an object counts for nothing (`Json.Alike`).

A kind and a type are handed on by their names. Every kind has its own name (`Kind.ofName?_name`),
but not every type: a type that is named like a type of the language cannot be told from it. The
types in a program that was parsed were read from names, and so can be read from their names again
(`Outline.readable_typed`).
-/

namespace Tricode

/-! ### Outlines of programs -/

namespace Expr

mutual

/-- The outline of an expression. -/
def outline : Expr → Outline
  | literal kind text pos => .node kind.kind (some text) none [] pos
  | ident name pos => .node .identifier (some name) none [] pos
  | unary op e pos => .node .unary (some op) none [e.outline] pos
  | binary op l r pos => .node .binary (some op) none [l.outline, r.outline] pos
  | call f args pos => .node .call none none (f.outline :: outlines args) pos
  | assign target e pos =>
    .node .assignment (some target) none [.node .identifier (some target) none [] pos, e.outline]
      pos

/-- The outlines of expressions. -/
def outlines : List Expr → List Outline
  | [] => []
  | e :: es => e.outline :: outlines es

end

mutual

/-- The node of an expression has the `outline` of the expression. -/
theorem outline_toNode (e : Expr) : e.toNode.outline = .ok e.outline := by
  match e with
  | literal .. => rfl
  | ident .. => rfl
  | unary op e pos =>
    rw [toNode, Node.outline, outline_toNode e]
    rfl
  | binary op l r pos =>
    rw [toNode, Node.outline, outline_toNode l, outline_toNode r]
    rfl
  | call f args pos =>
    rw [toNode, Node.outline, outline_toNode f, outlines_toNodes args]
    rfl
  | assign target e pos =>
    rw [toNode, Node.outline, outline_toNode e]
    rfl

theorem outlines_toNodes (es : List Expr) : Node.outlines (toNodes es) = .ok (outlines es) := by
  match es with
  | [] => rfl
  | e :: es =>
    rw [toNodes, Node.outlines, outline_toNode e, outlines_toNodes es]
    rfl

end

end Expr

mutual

/-- The outline of a statement. -/
def Stmt.outline : Stmt → Outline
  | .expr e pos => .node .expression none none [e.outline] pos
  | .declare type name init pos =>
    .node .declaration (some name) (some type) (init.toList.map Expr.outline) pos
  | .ifThen cond body pos => .node .conditional none none [cond.outline, body.outline] pos
  | .ifElse cond body alternative pos =>
    .node .conditional none none [cond.outline, body.outline, alternative.outline] pos
  | .loop cond body pos => .node .loop none none [cond.outline, body.outline] pos
  | .ret value pos => .node .ret none none (value.toList.map Expr.outline) pos

/-- The outline of a block. -/
def Block.outline : Block → Outline
  | .mk statements pos => .node .block none none (Stmt.outlines statements) pos

/-- The outlines of statements. -/
def Stmt.outlines : List Stmt → List Outline
  | [] => []
  | s :: ss => s.outline :: Stmt.outlines ss

end

/-- The outline of a parameter. -/
def Param.outline (p : Param) : Outline :=
  .node .parameter (some p.name) (some p.type) [] p.pos

/-- The outline of a function. -/
def Function.outline (f : Function) : Outline :=
  .node .function (some f.name) (some f.result)
    [.node .parameters none none (f.params.map Param.outline) f.pos, f.body.outline] f.pos

mutual

/-- The node of a statement has the `outline` of the statement. -/
theorem Stmt.outline_toNode (s : Stmt) : s.toNode.outline = .ok s.outline := by
  match s with
  | .expr e pos =>
    rw [Stmt.toNode, Node.outline, e.outline_toNode]
    rfl
  | .declare type x none pos => rfl
  | .declare type x (some e) pos =>
    rw [Stmt.toNode, Node.ofExpr?, Node.outline, e.outline_toNode, e.isAbsent_toNode]
    rfl
  | .ifThen c b pos =>
    rw [Stmt.toNode, Node.outline, c.outline_toNode, b.outline_toNode]
    rfl
  | .ifElse c b a pos =>
    rw [Stmt.toNode, Node.outline, c.outline_toNode, b.outline_toNode, a.outline_toNode,
      a.isAbsent_toNode]
    rfl
  | .loop c b pos =>
    rw [Stmt.toNode, Node.outline, c.outline_toNode, b.outline_toNode]
    rfl
  | .ret none pos => rfl
  | .ret (some e) pos =>
    rw [Stmt.toNode, Node.ofExpr?, Node.outline, e.outline_toNode, e.isAbsent_toNode]
    rfl

/-- The node of a block has the `outline` of the block. -/
theorem Block.outline_toNode (b : Block) : b.toNode.outline = .ok b.outline := by
  match b with
  | .mk ss pos =>
    rw [Block.toNode, Node.outline, Stmt.outlines_toNodes ss]
    rfl

theorem Stmt.outlines_toNodes (ss : List Stmt) :
    Node.outlines (Stmt.toNodes ss) = .ok (Stmt.outlines ss) := by
  match ss with
  | [] => rfl
  | s :: ss =>
    rw [Stmt.toNodes, Node.outlines, s.outline_toNode, Stmt.outlines_toNodes ss]
    rfl

end

theorem Node.outlines_map {α : Type} (node : α → Node) (outline : α → Outline)
    (h : ∀ a, (node a).outline = .ok (outline a)) (as : List α) :
    Node.outlines (as.map node) = .ok (as.map outline) := by
  induction as with
  | nil => rfl
  | cons a as ih =>
    rw [List.map_cons, Node.outlines, h a, ih]
    rfl

theorem Function.outline_toNode (f : Function) : f.toNode.outline = .ok f.outline := by
  rw [Function.toNode, Node.outline, Node.outlines_map _ Param.outline (fun _ => rfl),
    f.body.outline_toNode]
  rfl

/-- The node of a program has an `outline`, and no fault is met on the way. -/
theorem Program.outline_toNode (p : Program) :
    p.toNode.outline = .ok (.node .program none none (p.functions.map Function.outline) p.pos) := by
  rw [Program.toNode, Node.outline, Node.outlines_map _ _ Function.outline_toNode]
  rfl

/-- The `outline` of a program, by those of its functions. -/
theorem Program.outline_eq (p : Program) :
    p.outline = .node .program none none (p.functions.map Function.outline) p.pos := by
  rw [Program.outline, p.outline_toNode]
  rfl

/-! ### Programs of outlines -/

namespace Outline

mutual

/-- The expression of an outline. The target of an assignment stands for itself, as the first
child. -/
def expr? : Outline → Option Expr
  | node .integerLiteral (some text) none [] pos => some (.literal .int text pos)
  | node .floatLiteral (some text) none [] pos => some (.literal .float text pos)
  | node .booleanLiteral (some text) none [] pos => some (.literal .bool text pos)
  | node .identifier (some name) none [] pos => some (.ident name pos)
  | node .unary (some op) none [e] pos => return .unary op (← e.expr?) pos
  | node .binary (some op) none [l, r] pos => return .binary op (← l.expr?) (← r.expr?) pos
  | node .call none none (f :: args) pos => return .call (← f.expr?) (← exprs? args) pos
  | node .assignment (some _) none [node .identifier (some target) none [] pos, e] _ =>
    return .assign target (← e.expr?) pos
  | _ => none

/-- The expressions of outlines. -/
def exprs? : List Outline → Option (List Expr)
  | [] => some []
  | o :: os => return (← o.expr?) :: (← exprs? os)

end

mutual

/-- The statement of an outline. -/
def stmt? : Outline → Option Stmt
  | node .expression none none [e] pos => return .expr (← e.expr?) pos
  | node .declaration (some name) (some type) [] pos => some (.declare type name none pos)
  | node .declaration (some name) (some type) [e] pos =>
    return .declare type name (some (← e.expr?)) pos
  | node .conditional none none [cond, body] pos =>
    return .ifThen (← cond.expr?) (← body.block?) pos
  | node .conditional none none [cond, body, alternative] pos =>
    return .ifElse (← cond.expr?) (← body.block?) (← alternative.block?) pos
  | node .loop none none [cond, body] pos => return .loop (← cond.expr?) (← body.block?) pos
  | node .ret none none [] pos => some (.ret none pos)
  | node .ret none none [e] pos => return .ret (some (← e.expr?)) pos
  | _ => none

/-- The block of an outline. -/
def block? : Outline → Option Block
  | node .block none none statements pos => return .mk (← stmts? statements) pos
  | _ => none

/-- The statements of outlines. -/
def stmts? : List Outline → Option (List Stmt)
  | [] => some []
  | o :: os => return (← o.stmt?) :: (← stmts? os)

end

/-- The parameter of an outline. -/
def param? : Outline → Option Param
  | node .parameter (some name) (some type) [] pos => some ⟨type, name, pos⟩
  | _ => none

/-- The function of an outline. -/
def function? : Outline → Option Function
  | node .function (some name) (some result) [node .parameters none none params _, body] pos =>
    return ⟨result, name, ← params.mapM param?, ← body.block?, pos⟩
  | _ => none

/-- The program of an outline. -/
def program? : Outline → Option Program
  | node .program none none functions pos => return ⟨← functions.mapM function?, pos⟩
  | _ => none

mutual

/-- An expression is read from its `outline`. -/
theorem expr?_outline (e : Expr) : e.outline.expr? = some e := by
  match e with
  | .literal kind text pos => cases kind <;> rfl
  | .ident .. => rfl
  | .unary op e pos =>
    rw [Expr.outline, expr?, expr?_outline e]
    rfl
  | .binary op l r pos =>
    rw [Expr.outline, expr?, expr?_outline l, expr?_outline r]
    rfl
  | .call f args pos =>
    rw [Expr.outline, expr?, expr?_outline f, exprs?_outlines args]
    rfl
  | .assign target e pos =>
    rw [Expr.outline, expr?, expr?_outline e]
    rfl

theorem exprs?_outlines (es : List Expr) : exprs? (Expr.outlines es) = some es := by
  match es with
  | [] => rfl
  | e :: es =>
    rw [Expr.outlines, exprs?, expr?_outline e, exprs?_outlines es]
    rfl

end

mutual

/-- A statement is read from its `outline`. -/
theorem stmt?_outline (s : Stmt) : s.outline.stmt? = some s := by
  match s with
  | .expr e pos =>
    rw [Stmt.outline, stmt?, expr?_outline e]
    rfl
  | .declare type x none pos => rfl
  | .declare type x (some e) pos =>
    rw [Stmt.outline, Option.toList_some, List.map_singleton, stmt?, expr?_outline e]
    rfl
  | .ifThen c b pos =>
    rw [Stmt.outline, stmt?, expr?_outline c, block?_outline b]
    rfl
  | .ifElse c b a pos =>
    rw [Stmt.outline, stmt?, expr?_outline c, block?_outline b, block?_outline a]
    rfl
  | .loop c b pos =>
    rw [Stmt.outline, stmt?, expr?_outline c, block?_outline b]
    rfl
  | .ret none pos => rfl
  | .ret (some e) pos =>
    rw [Stmt.outline, Option.toList_some, List.map_singleton, stmt?, expr?_outline e]
    rfl

/-- A block is read from its `outline`. -/
theorem block?_outline (b : Block) : b.outline.block? = some b := by
  match b with
  | .mk ss pos =>
    rw [Block.outline, block?, stmts?_outlines ss]
    rfl

theorem stmts?_outlines (ss : List Stmt) : stmts? (Stmt.outlines ss) = some ss := by
  match ss with
  | [] => rfl
  | s :: ss =>
    rw [Stmt.outlines, stmts?, stmt?_outline s, stmts?_outlines ss]
    rfl

end

theorem mapM_outlines {α : Type} (outline : α → Outline) {read? : Outline → Option α}
    (h : ∀ a, read? (outline a) = some a) (as : List α) :
    (as.map outline).mapM read? = some as := by
  induction as with
  | nil => rfl
  | cons a as ih =>
    rw [List.map_cons, List.mapM_cons, h a, ih]
    rfl

/-- A function is read from its `outline`. -/
theorem function?_outline (f : Function) : f.outline.function? = some f := by
  rw [Function.outline, function?, mapM_outlines Param.outline (fun _ => rfl),
    block?_outline f.body]
  rfl

/-- A program is read from its `outline`. -/
theorem program?_outline (p : Program) : p.outline.program? = some p := by
  rw [p.outline_eq, program?, mapM_outlines _ function?_outline]
  rfl

end Outline

/-! ### Outlines of objects -/

theorem forall_mem_pair {α : Type} {P : α → Prop} {a b : α} (ha : P a) (hb : P b) :
    ∀ c ∈ [a, b], P c :=
  List.forall_mem_cons.2 ⟨ha, List.forall_mem_singleton.2 hb⟩

/-- `ofName?` reads a kind of nodes from its name. -/
theorem Kind.ofName?_name (kind : Kind) : Kind.ofName? kind.name = some kind := by
  cases kind <;> rfl

namespace Json

/-- The text that a value is. -/
def text? : Json → Option String
  | text s => some s
  | _ => none

/-- The integer that a value is. -/
def int? : Json → Option Int
  | int n => some n
  | _ => none

end Json

namespace Outline

/-- The outline of an object with these children. -/
def ofFields? (object : Json) (children : Option (List Outline)) : Option Outline := do
  let kind ← ((object.field? "type").bind Json.text?).bind Kind.ofName?
  let value ← (object.field? "value").mapM Json.text?
  let type ← (object.field? "dataType").mapM Json.text?
  let line ← (object.field? "line").bind Json.int?
  let column ← (object.field? "column").bind Json.int?
  return .node kind value (type.map .ofName) (← children) ⟨line, column⟩

mutual

/-- The outline that was handed on as a value. -/
def ofJson? : Json → Option Outline
  | .null => some .absent
  | .object fields => ofFields? (.object fields) (childrenOf? fields)
  | _ => none

/-- The outlines in a list. -/
def items? : Json → Option (List Outline)
  | .list items => ofJsons? items
  | _ => none

/-- The outlines that were handed on as values. -/
def ofJsons? : List Json → Option (List Outline)
  | [] => some []
  | json :: jsons => return (← ofJson? json) :: (← ofJsons? jsons)

/-- The outlines in the last field of that name. -/
def childrenOf? : List (String × Json) → Option (List Outline)
  | [] => none
  | (name, value) :: fields =>
    if ((Json.object fields).field? "children").isSome then childrenOf? fields
    else if name == "children" then items? value
    else none

end

end Outline

/-- Of two fields with one name, `field?` finds the later one. -/
theorem Json.field?_cons (name key : String) (value : Json) (fields : List (String × Json)) :
    (object ((key, value) :: fields)).field? name =
      ((object fields).field? name).or (if key == name then some value else none) := by
  simp only [field?, List.reverse_cons, List.find?_append, List.find?_singleton, Option.map_or]
  split <;> rfl

namespace Outline

/-- The children of a node are in its field `children`. -/
theorem childrenOf?_eq (fields : List (String × Json)) :
    childrenOf? fields = ((Json.object fields).field? "children").bind items? := by
  induction fields with
  | nil => rfl
  | cons field fields ih =>
    rw [childrenOf?, Json.field?_cons, ih]
    cases (Json.object fields).field? "children" with
    | none => cases field.1 == "children" <;> rfl
    | some value => rfl

/-- The outline can be read from its object. -/
def Readable (o : Outline) : Prop :=
  ofJson? o.toJson = some o

/-- A row of `Readable` outlines is read from the row of its objects. -/
theorem ofJsons?_toJsons {os : List Outline} (h : ∀ o ∈ os, o.Readable) :
    ofJsons? (toJsons os) = some os := by
  induction os with
  | nil => rfl
  | cons o os ih =>
    obtain ⟨ho, hos⟩ := List.forall_mem_cons.1 h
    rw [toJsons, ofJsons?, ho, ih hos]
    rfl

/-- A node is `Readable` if its children are and its type is read from its name. -/
theorem readable_node (kind : Kind) (value : Option String) {type : Option Ty}
    {children : List Outline}
    (pos : Pos) (htype : ∀ t ∈ type, Ty.ofName t.name = t) (h : ∀ o ∈ children, o.Readable) :
    (node kind value type children pos).Readable := by
  -- the fields are read one by one, whether value and type are there or not
  have hread : ofJson? (node kind value type children pos).toJson =
      (Kind.ofName? kind.name).bind fun kind =>
        (ofJsons? (toJsons children)).bind fun children =>
          some (node kind value (type.map fun t => .ofName t.name) children pos) := by
    rw [toJson, ofJson?, childrenOf?_eq]
    cases value <;> cases type <;> rfl
  -- a type is shown under its name, and read from there
  have htypes : (type.map fun t => Ty.ofName t.name) = type := by
    cases type with
    | none => rfl
    | some t => exact congrArg some (htype t rfl)
  rw [Readable, hread, kind.ofName?_name, ofJsons?_toJsons h, htypes]
  rfl

/-- A node without a type is `Readable`, if its children are. -/
theorem readable_untyped (kind : Kind) (value : Option String) {children : List Outline} (pos : Pos)
    (h : ∀ o ∈ children, o.Readable) : (node kind value none children pos).Readable :=
  readable_node kind value pos (by simp) h

/-- A node with a type that was read from a name is `Readable`, if its children are. -/
theorem readable_typed (kind : Kind) (value : Option String) (type : String)
    {children : List Outline} (pos : Pos) (h : ∀ o ∈ children, o.Readable) :
    (node kind value (some (.ofName type)) children pos).Readable :=
  readable_node kind value pos (by simp [Ty.name_ofName]) h

mutual

/-- The `outline` of an expression is `Readable`. -/
theorem readable_expr (e : Expr) : e.outline.Readable := by
  match e with
  | .literal kind text pos => exact readable_untyped _ _ pos (List.forall_mem_nil _)
  | .ident name pos => exact readable_untyped _ _ pos (List.forall_mem_nil _)
  | .unary op e pos =>
    exact readable_untyped _ _ pos (List.forall_mem_singleton.2 (readable_expr e))
  | .binary op l r pos =>
    exact readable_untyped _ _ pos (forall_mem_pair (readable_expr l) (readable_expr r))
  | .call f args pos =>
    exact readable_untyped _ _ pos (List.forall_mem_cons.2 ⟨readable_expr f, readable_exprs args⟩)
  | .assign target e pos =>
    have htarget := readable_untyped .identifier (some target) pos (List.forall_mem_nil _)
    exact readable_untyped _ _ pos (forall_mem_pair htarget (readable_expr e))

theorem readable_exprs (es : List Expr) : ∀ o ∈ Expr.outlines es, o.Readable := by
  match es with
  | [] => exact List.forall_mem_nil _
  | e :: es => exact List.forall_mem_cons.2 ⟨readable_expr e, readable_exprs es⟩

end

theorem readable_optional (e? : Option Expr) : ∀ o ∈ e?.toList.map Expr.outline, o.Readable :=
  List.forall_mem_map.2 fun e _ => readable_expr e

theorem readable_stmts {ss : List Stmt} (h : ∀ s ∈ ss, s.outline.Readable) :
    ∀ o ∈ Stmt.outlines ss, o.Readable := by
  induction ss with
  | nil => exact List.forall_mem_nil _
  | cons s ss ih =>
    obtain ⟨hs, hss⟩ := List.forall_mem_cons.1 h
    exact List.forall_mem_cons.2 ⟨hs, ih hss⟩

end Outline

namespace Parser

open Outline

/-- The outlines of parsed statements are `Readable`. -/
theorem stmtRules_readable :
    StmtRules (.all fun _ => True) (fun _ => True) (fun _ s => s.outline.Readable)
      fun _ b => b.outline.Readable where
  expr _ _ := readable_untyped _ _ _ (List.forall_mem_singleton.2 (readable_expr _))
  declare _ _ _ _ := readable_typed _ _ _ _ (readable_optional _)
  ifThen _ _ hbody := readable_untyped _ _ _ (forall_mem_pair (readable_expr _) hbody)
  ifElse _ _ hbody halternative := readable_untyped _ _ _
    (List.forall_mem_cons.2 ⟨readable_expr _, forall_mem_pair hbody halternative⟩)
  loop _ _ hbody := readable_untyped _ _ _ (forall_mem_pair (readable_expr _) hbody)
  ret _ _ := readable_untyped _ _ _ (readable_optional _)
  block _ hss := readable_untyped _ _ _ (readable_stmts hss)

/-- The outlines of parsed functions are `Readable`. -/
theorem functionRules_readable :
    FunctionRules (.all fun _ => True) (fun b => b.outline.Readable) (fun p => p.outline.Readable)
      fun f => f.outline.Readable where
  param _ _ _ := readable_typed _ _ _ _ (List.forall_mem_nil _)
  function _ _ _ hparams hbody := readable_typed _ _ _ _
    (forall_mem_pair (readable_untyped _ _ _ (List.forall_mem_map.2 hparams)) hbody)

end Parser

/-- The `outline` of a parsed program is `Readable`. -/
theorem readable_parse (ts : List Token) : (parse ts).1.outline.Readable := by
  have hfunctions : ∀ f ∈ (parse ts).1.functions, f.outline.Readable :=
    Parser.functions_parse (Parser.exprRules_any _) Parser.stmtRules_readable
      Parser.functionRules_readable fun _ _ => trivial
  rw [Program.outline_eq]
  exact Outline.readable_untyped _ _ _ (List.forall_mem_map.2 hfunctions)

/-! ### The order of fields -/

namespace Json

/-- The values are the same, except that the fields of objects may be in another order. Of fields
with the same name the last one counts. -/
inductive Alike : Json → Json → Prop where
  | null : Alike null null
  | bool (b : Bool) : Alike (bool b) (bool b)
  | int (n : Int) : Alike (int n) (int n)
  | real (literal : String) : Alike (real literal) (real literal)
  | text (s : String) : Alike (text s) (text s)
  | nil : Alike (list []) (list [])
  | cons {x y : Json} {xs ys : List Json} : Alike x y → Alike (list xs) (list ys) →
    Alike (list (x :: xs)) (list (y :: ys))
  | object {fs gs : List (String × Json)}
    (names : ∀ name, ((object fs).field? name).isSome = ((object gs).field? name).isSome)
    (values : ∀ name v w, (object fs).field? name = some v → (object gs).field? name = some w →
      Alike v w) : Alike (object fs) (object gs)

mutual

/-- Every value is `Alike` itself. -/
theorem alike_self (json : Json) : Alike json json := by
  match json with
  | null => exact .null
  | bool b => exact .bool b
  | int n => exact .int n
  | real literal => exact .real literal
  | text s => exact .text s
  | list items => exact alike_list items
  | object fields =>
    -- the fields of one name are the same on both sides
    refine .object (fun _ => rfl) fun name v w hv hw => ?_
    obtain rfl := Option.some.inj (hv.symm.trans hw)
    exact alike_field fields name v hv

theorem alike_list (items : List Json) : Alike (list items) (list items) := by
  match items with
  | [] => exact .nil
  | item :: items => exact .cons (alike_self item) (alike_list items)

theorem alike_field (fields : List (String × Json)) (name : String) (v : Json)
    (h : (object fields).field? name = some v) : Alike v v := by
  match fields with
  | [] => cases h
  | (key, value) :: fields =>
    rw [field?_cons, Option.or_eq_some_iff] at h
    obtain h | ⟨-, h⟩ := h
    · exact alike_field fields name v h
    · split at h
      · obtain rfl := Option.some.inj h
        exact alike_self value
      · cases h

end

/-- A `field?` is read alike in objects that are alike. -/
theorem bind_field?_eq {β : Type} {read? : Json → Option β} {fs gs : List (String × Json)}
    (name : String) (names : ((object fs).field? name).isSome = ((object gs).field? name).isSome)
    (values : ∀ v w, (object fs).field? name = some v → (object gs).field? name = some w →
      read? v = read? w) :
    ((object fs).field? name).bind read? = ((object gs).field? name).bind read? ∧
      ((object fs).field? name).mapM read? = ((object gs).field? name).mapM read? := by
  -- the field is on both sides or on none
  cases hf : (object fs).field? name with
  | none =>
    cases hg : (object gs).field? name with
    | none => exact ⟨rfl, rfl⟩
    | some w =>
      rw [hf, hg] at names
      cases names
  | some v =>
    cases hg : (object gs).field? name with
    | none =>
      rw [hf, hg] at names
      cases names
    | some w =>
      simp only [Option.bind_some, Option.mapM_some, values v w hf hg, and_self]

theorem Alike.text?_eq {v w : Json} (h : Alike v w) : v.text? = w.text? := by
  cases h <;> rfl

theorem Alike.int?_eq {v w : Json} (h : Alike v w) : v.int? = w.int? := by
  cases h <;> rfl

end Json

namespace Outline

/-- What is `Alike` is read alike, as an outline and as a list of outlines. -/
theorem ofJson?_eq_of_alike {v w : Json} (h : v.Alike w) :
    ofJson? v = ofJson? w ∧ items? v = items? w := by
  induction h with
  | null => exact ⟨rfl, rfl⟩
  | bool b => exact ⟨rfl, rfl⟩
  | int n => exact ⟨rfl, rfl⟩
  | real literal => exact ⟨rfl, rfl⟩
  | text s => exact ⟨rfl, rfl⟩
  | nil => exact ⟨rfl, rfl⟩
  | @cons x y xs ys _ _ ihx ihxs =>
    have hrest : ofJsons? xs = ofJsons? ys := ihxs.2
    refine ⟨rfl, ?_⟩
    simp only [items?, ofJsons?, ihx.1, hrest]
  | object names values ih =>
    refine ⟨?_, rfl⟩
    -- each field that is read is a text, a number or the children
    have htext := fun name => Json.bind_field?_eq name (names name) fun v w hv hw =>
      (values name v w hv hw).text?_eq
    have hint := fun name => Json.bind_field?_eq name (names name) fun v w hv hw =>
      (values name v w hv hw).int?_eq
    have hitems := Json.bind_field?_eq "children" (names _) fun v w hv hw => (ih _ v w hv hw).2
    simp only [ofJson?, ofFields?, childrenOf?_eq, (htext _).1, (htext _).2, (hint _).1, hitems.1]

end Outline

/-- The program that was handed on as a value. -/
def Program.ofJson? (json : Json) : Option Program :=
  (Outline.ofJson? json).bind Outline.program?

/-- The program that the parser finds has an `outline`, and is read from the object of its outline
by `Program.ofJson?`: its positions, names, types, operators, and which of its parts are there. So
the objects of two programs are `Alike` only if the programs are the same. -/
theorem ofJson?_toJson_parse (ts : List Token) :
    (parse ts).1.toNode.outline = .ok (parse ts).1.outline ∧
      Program.ofJson? (parse ts).1.outline.toJson = some (parse ts).1 ∧
      ∀ us, (parse ts).1.outline.toJson.Alike (parse us).1.outline.toJson ↔
        (parse ts).1 = (parse us).1 := by
  have hread : ∀ us, Program.ofJson? (parse us).1.outline.toJson = some (parse us).1 := by
    intro us
    rw [Program.ofJson?, readable_parse us]
    exact Outline.program?_outline _
  refine ⟨?_, hread ts, fun us => ⟨fun halike => ?_, fun heq => ?_⟩⟩
  · rw [Program.outline_eq]
    exact Program.outline_toNode _
  -- objects that are alike are read to the same program
  · have hsame := (Outline.ofJson?_eq_of_alike halike).1
    refine Option.some.inj ?_
    rw [← hread ts, ← hread us, Program.ofJson?, hsame, Program.ofJson?]
  · rw [heq]
    exact Json.alike_self _

end Tricode
