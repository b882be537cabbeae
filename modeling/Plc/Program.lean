import Plc.Literal
import Plc.Operator

/-!
Programs as trees. The slots `ty`, `record` and `signature` are empty in a program that was only
read; analysis fills them and changes nothing else. `erase` empties them again.
-/

namespace Plc

inductive Expr where
  | literal (value : Literal) (ty : Option Ty)
  /-- An expression in parentheses. -/
  | group (inner : Expr) (ty : Option Ty)
  | binary (op : Operator) (left right : Expr) (ty : Option Ty)
  | access (name : String) (record : Option Variable) (ty : Option Ty)
  /-- One element of the list that a variable holds. -/
  | element (name : String) (index : Expr) (record : Option Variable) (ty : Option Ty)
  | call (name : String) (arguments : List Expr) (signature : Option Signature) (ty : Option Ty)
  | list (elements : List Expr) (ty : Option Ty)
  deriving Repr, Inhabited

namespace Expr

def ty : Expr → Option Ty
  | literal _ ty | group _ ty | binary _ _ _ ty | access _ _ ty | element _ _ _ ty
  | call _ _ _ ty | list _ ty => ty

end Expr

mutual

inductive Stmt where
  /-- A call made for its effect. -/
  | expression (e : Expr)
  | declaration (name : String) (typeName : Option String) (value : Option Expr)
      (record : Option Variable)
  | assignment (receiver value : Expr)
  | conditional (condition : Expr) (whenTrue whenFalse : List Stmt)
  | switch (condition : Expr) (cases : List Case)
  | loop (condition : Expr) (body : List Stmt)
  | return (value : Expr)

/-- An arm of a switch; the default arm has no value. -/
inductive Case where
  | arm (value : Option Expr) (body : List Stmt)

end

deriving instance Repr, Inhabited for Stmt
deriving instance Repr, Inhabited for Case

def Case.value : Case → Option Expr
  | arm value _ => value

def Case.body : Case → List Stmt
  | arm _ body => body

structure Global where
  name : String
  typeName : Option String
  mutable : Bool
  list : Bool
  value : Option Expr
  record : Option Variable
  deriving Repr, Inhabited

structure Parameter where
  name : String
  typeName : String
  deriving DecidableEq, Repr, Inhabited

structure Function where
  name : String
  parameters : List Parameter
  returns : Option String
  body : List Stmt
  signature : Option Signature
  deriving Repr, Inhabited

def Function.arity (f : Function) : Nat := f.parameters.length

structure Program where
  globals : List Global
  functions : List Function
  deriving Repr, Inhabited

end Plc
