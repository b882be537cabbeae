import Plc.Operator
import Plc.Literal
import Plc.Scope

/-!
What makes a program ill-typed, and the wording of each cause.
-/

namespace Plc

inductive Conditional where
  | if
  | while
  deriving DecidableEq, Repr, Inhabited

def Conditional.text : Conditional → String
  | .if => "IF"
  | .while => "WHILE"

inductive TypeError where
  | unknownType (name : String)
  | redefinition (r : Redefinition)
  | untypedEmptyList (name : String)
  | neitherTypeNorValue (name : String)
  | notAssignable (target actual : Ty)
  | statementNotCall
  | badReceiver
  | wholeListAssigned (name : String)
  | conditionNotBoolean (statement : Conditional) (actual : Ty)
  | emptyThen
  | defaultNotLast
  | caseMismatch (case condition : Ty)
  | strayReturn
  | groupWithoutOperator
  | undefinedVariable (name : String)
  | notList (name : String)
  | indexNotInteger (actual : Ty)
  | undefinedFunction (name : String) (arity : Nat)
  | emptyList
  | mixedList (expected found : Ty)
  | operands (op : Operator) (left right : Ty)
  | integerRange (n : Int)
  | decimalRange (d : Decimal)
  | mainResult (actual : Ty)
  | mainMissing
  deriving DecidableEq, Repr, Inhabited

def TypeError.message : TypeError → String
  | .unknownType name => "Unknown type '" ++ name ++ "'"
  | .redefinition r => r.message
  | .untypedEmptyList name => "Cannot infer the element type of empty list '" ++ name ++ "'"
  | .neitherTypeNorValue name => "'" ++ name ++ "' requires a type or an initial value"
  | .notAssignable target actual =>
    "Type " ++ actual.name ++ " is not assignable to " ++ target.name
  | .statementNotCall => "Only function calls may be used as statements"
  | .badReceiver => "Assignment receiver must be a variable or a list element"
  | .wholeListAssigned name => "List '" ++ name ++ "' can only be assigned through an index"
  | .conditionNotBoolean statement actual =>
    statement.text ++ " condition must be Boolean, not " ++ actual.name
  | .emptyThen => "The then block of an IF statement cannot be empty"
  | .defaultNotLast => "DEFAULT must be the last case of a SWITCH"
  | .caseMismatch case condition =>
    "Case value of type " ++ case.name ++ " does not match SWITCH condition of type " ++
      condition.name
  | .strayReturn => "RETURN is only allowed inside a function"
  | .groupWithoutOperator => "A parenthesized expression must contain a binary expression"
  | .undefinedVariable name => "Variable '" ++ name ++ "' is not defined"
  | .notList name => "Variable '" ++ name ++ "' is not a list and cannot be indexed"
  | .indexNotInteger actual => "List index must be Integer, not " ++ actual.name
  | .undefinedFunction name arity =>
    "Function '" ++ name ++ "' taking " ++ toString arity ++ " argument(s) is not defined"
  | .emptyList => "Cannot infer the element type of an empty list"
  | .mixedList expected found =>
    "List elements must share one type: expected " ++ expected.name ++ ", found " ++ found.name
  | .operands op left right => op.mismatch left right
  | .integerRange n => "Integer literal " ++ toString n ++ " is out of range"
  | .decimalRange d => "Decimal literal " ++ d.shortText ++ " is out of range"
  | .mainResult actual => "Main function must return Integer, not " ++ actual.name
  | .mainMissing => "Main function not found: expected FUN main(): Integer"

end Plc
