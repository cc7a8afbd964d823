import Tricode.Diagnostic

/-!
# What the parser reports
-/

namespace Tricode

/-- What the parser wanted to see next. -/
inductive Expectation where
  | returnType
  | functionName
  | openAfterFunctionName
  | closeAfterParameters
  | parameterType
  | parameterName
  | openBrace
  | closeBrace
  | variableName
  | semicolonAfterDeclaration
  | openAfterIf
  | closeAfterIfCondition
  | openAfterWhile
  | closeAfterWhileCondition
  | semicolonAfterReturn
  | semicolonAfterExpression
  | closeAfterArguments
  | closeAfterExpression
  | expression
deriving DecidableEq, Repr

/-- What was wanted, in words. -/
def Expectation.text : Expectation → String
  | returnType => "return type"
  | functionName => "function name"
  | openAfterFunctionName => "\"(\" after function name"
  | closeAfterParameters => "\")\" after parameters"
  | parameterType => "parameter type"
  | parameterName => "parameter name"
  | openBrace => "\"\x7b\""
  | closeBrace => "\"\x7d\""
  | variableName => "variable name"
  | semicolonAfterDeclaration => "\";\" after variable declaration"
  | openAfterIf => "\"(\" after \"if\""
  | closeAfterIfCondition => "\")\" after if condition"
  | openAfterWhile => "\"(\" after \"while\""
  | closeAfterWhileCondition => "\")\" after while condition"
  | semicolonAfterReturn => "\";\" after return value"
  | semicolonAfterExpression => "\";\" after expression"
  | closeAfterArguments => "\")\" after arguments"
  | closeAfterExpression => "\")\" after expression"
  | expression => "expression"

/-- What can be nested too deeply. -/
inductive Construct where
  | expression
  | block
deriving DecidableEq, Repr

/-- A construct in words. -/
def Construct.text : Construct → String
  | expression => "Expression"
  | block => "Block"

/-- Why the parser complains. -/
inductive GrammarCause where
  | expected (what : Expectation)
  | nestedTooDeeply (what : Construct)
  | invalidTarget
  | unexpectedKeyword (word : String)
  /-- A complaint in the words of whoever asked for a token. -/
  | custom (message : String)
deriving DecidableEq, Repr

/-- The cause in words. -/
def GrammarCause.message : GrammarCause → String
  | expected what => s!"Expected {what.text}"
  | nestedTooDeeply what => s!"{what.text} nested too deeply"
  | invalidTarget => "Invalid assignment target"
  | unexpectedKeyword word => s!"Unexpected keyword: {word}"
  | custom message => message

/-- A parser's finding as it is shown. -/
def Diagnostic.ofGrammar (f : Finding GrammarCause) : Diagnostic :=
  ⟨.grammar, f.cause.message, f.pos⟩

end Tricode
