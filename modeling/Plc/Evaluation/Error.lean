import Plc.Operator
import Plc.Scope
import Plc.Value

/-!
What stops a running program, and the wording of each cause.
-/

namespace Plc

inductive RuntimeError where
  | undefinedVariable (name : String)
  | undefinedFunction (name : String) (arity : Nat)
  | redefinition (r : Redefinition)
  | mainMissing
  | mainResult (found : Value.Kind)
  | badReceiver
  | immutable (name : String)
  | notList (name : String) (found : Value.Kind)
  | selfContaining (name : String)
  | conditionNotBoolean (found : Value.Kind)
  | indexNotInteger (found : Value.Kind)
  | indexRange (index : Int) (length : Nat)
  | operands (op : Operator) (left right : Value.Kind)
  | divisionByZero
  | divisionScale
  | negativeExponent (n : Int)
  | largeExponent (n : Int)
  | outlivedScope (name : String)
  | printArity (given : Nat)
  deriving DecidableEq, Repr, Inhabited

def RuntimeError.message : RuntimeError → String
  | .undefinedVariable name => "Variable '" ++ name ++ "' is not defined"
  | .undefinedFunction name arity =>
    "Function '" ++ name ++ "/" ++ toString arity ++ "' is not defined"
  | .redefinition r => r.message
  | .mainMissing => "Main function not found"
  | .mainResult found => "Main function returned " ++ found.name ++ ", expected Integer"
  | .badReceiver => "Assignment receiver must be a variable or a list element"
  | .immutable name => "Cannot assign to immutable variable '" ++ name ++ "'"
  | .notList name found => "Variable '" ++ name ++ "' holds " ++ found.name ++ ", not a list"
  | .selfContaining name => "Cannot store list '" ++ name ++ "' inside itself"
  | .conditionNotBoolean found => "Condition must be Boolean, got " ++ found.name
  | .indexNotInteger found => "List index must be Integer, got " ++ found.name
  | .indexRange index length =>
    "Index " ++ toString index ++ " is out of range for list of length " ++ toString length
  | .operands op left right =>
    "Operator '" ++ op.text ++ "' cannot be applied to " ++ left.name ++ " and " ++ right.name
  | .divisionByZero => "Division by zero"
  | .divisionScale => "Decimal division exceeds the supported scale"
  | .negativeExponent n => "Negative exponent " ++ toString n ++ " is not supported"
  | .largeExponent n => "Exponent " ++ toString n ++ " is too large"
  | .outlivedScope name => "Function '" ++ name ++ "' outlived the scope that defined it"
  | .printArity given => "print expects 1 argument, got " ++ toString given

/-- Why an evaluation has no result. -/
inductive Halt where
  /-- An error of the program. -/
  | error (e : RuntimeError)
  /-- A sum of scales does not have 64 bits; the run breaks off without an error of its own. -/
  | overflow
  /-- The bound on the work was reached. -/
  | exhausted
  deriving DecidableEq, Repr, Inhabited

end Plc
