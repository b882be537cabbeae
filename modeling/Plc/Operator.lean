import Plc.Ty

/-!
The binary operators and the table that gives the type of a result from the types of the operands.
-/

namespace Plc

inductive Operator where
  | and
  | or
  | equal
  | notEqual
  | less
  | lessEqual
  | greater
  | greaterEqual
  | add
  | subtract
  | multiply
  | divide
  | power
  deriving DecidableEq, Repr, Inhabited

namespace Operator

def all : List Operator :=
  [.and, .or, .equal, .notEqual, .less, .lessEqual, .greater, .greaterEqual,
    .add, .subtract, .multiply, .divide, .power]

def text : Operator → String
  | .and => "&&"
  | .or => "||"
  | .equal => "=="
  | .notEqual => "!="
  | .less => "<"
  | .lessEqual => "<="
  | .greater => ">"
  | .greaterEqual => ">="
  | .add => "+"
  | .subtract => "-"
  | .multiply => "*"
  | .divide => "/"
  | .power => "^"

def ofText? (text : String) : Option Operator := all.find? fun op => op.text == text

/-- A decimal beside an integer or a decimal is a decimal. -/
def numericResult : Ty → Ty → Option Ty
  | .integer, .integer => some .integer
  | .decimal, .decimal => some .decimal
  | .decimal, .integer => some .decimal
  | .integer, .decimal => some .decimal
  | _, _ => none

/-- Adding to a string gives a string; integers and decimals are not added to each other. -/
def sumResult : Ty → Ty → Option Ty
  | .string, _ => some .string
  | _, .string => some .string
  | .integer, .integer => some .integer
  | .decimal, .decimal => some .decimal
  | _, _ => none

def resultType? (op : Operator) (left right : Ty) : Option Ty :=
  match op with
  | .and | .or => if left = .boolean ∧ right = .boolean then some .boolean else none
  | .equal | .notEqual | .less | .lessEqual | .greater | .greaterEqual =>
    if left = right then some .boolean else none
  | .add => sumResult left right
  | .subtract | .multiply | .divide => numericResult left right
  | .power => if left = .integer ∧ right = .integer then some .integer else none

def mismatch (op : Operator) (left right : Ty) : String :=
  let operands := left.name ++ " and " ++ right.name
  let requires (what : String) : String :=
    "Operator '" ++ op.text ++ "' requires " ++ what ++ ", got " ++ operands
  match op with
  | .and | .or => requires "Boolean operands"
  | .equal | .notEqual | .less | .lessEqual | .greater | .greaterEqual =>
    requires "operands of the same type"
  | .add =>
    if (numericResult left right).isSome then "Cannot add an Integer and a Decimal"
    else "Cannot add " ++ operands
  | .subtract | .multiply | .divide => requires "numeric operands"
  | .power => requires "Integer operands"

end Operator

end Plc
