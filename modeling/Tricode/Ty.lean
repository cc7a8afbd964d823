/-!
# Types of the language

The four types of the language, `unknown` for whatever failed to resolve, and two more that only
trees and symbols made by hand bring in: a type of another name, and the type of a call whose callee
was declared without a result.

`Ty.compatible_iff` says that the only conversion is from `int` to `float`.
-/

namespace Tricode

/-- A type. -/
inductive Ty where
  | int
  | float
  | bool
  | void
  /-- The type of anything that failed to resolve. -/
  | unknown
  /-- The result of a function that was declared without one. -/
  | absent
  /-- A type that the language does not know. -/
  | other (name : String)
deriving DecidableEq, Repr

namespace Ty

/-- A type in words. -/
def name : Ty → String
  | int => "int"
  | float => "float"
  | bool => "bool"
  | void => "void"
  | unknown => "unknown"
  | absent => "None"
  | other name => name

/-- The type of a given name. -/
def ofName : String → Ty
  | "int" => int
  | "float" => float
  | "bool" => bool
  | "void" => void
  | "unknown" => unknown
  | name => other name

/-- A type read from a name is shown under that name. -/
theorem name_ofName (name : String) : (ofName name).name = name := by
  unfold ofName
  split <;> rfl

/-- The type, unless it is the one that is absent. -/
def given? : Ty → Option Ty
  | absent => none
  | t => some t

/-- The types that arithmetic is defined on. -/
def isNumeric (t : Ty) : Bool :=
  t == int || t == float

/-- Whether a value of type `actual` may stand where `expected` is wanted. -/
def compatible (expected actual : Ty) : Bool :=
  expected == actual || (expected == float && actual == int)

/-- A value fits where its own type is expected, and an `int` where a `float` is. -/
theorem compatible_iff {expected actual : Ty} :
    compatible expected actual = true ↔
      expected = actual ∨ expected = float ∧ actual = int := by
  simp [compatible]

/-- Like `compatible`, except that `unknown` goes with everything: what failed to resolve has been
reported once already. -/
def assignable (expected actual : Ty) : Bool :=
  expected == unknown || actual == unknown || compatible expected actual

/-- The type of an arithmetic expression with operands of these types. -/
def arithmetic (left right : Ty) : Ty :=
  if left == float || right == float then float else int

end Ty

end Tricode
