import Plc.Program

/-!
A switch written with conditionals: its value is kept under a name that is used nowhere in it, and
each arm is a test of that name, with all later arms in the place of its `ELSE`.
-/

namespace Plc

mutual

/-- The variables that an expression uses. -/
def Expr.variables : Expr → List String
  | .literal .. => []
  | .group inner _ => inner.variables
  | .binary _ left right _ => left.variables ++ right.variables
  | .access name _ _ => [name]
  | .element name index _ _ => name :: index.variables
  | .call _ arguments _ _ => Expr.allVariables arguments
  | .list elements _ => Expr.allVariables elements

def Expr.allVariables : List Expr → List String
  | [] => []
  | e :: es => e.variables ++ Expr.allVariables es

end

mutual

/-- The variables that a statement uses or defines. -/
def Stmt.variables : Stmt → List String
  | .expression e => e.variables
  | .declaration name _ (some e) _ => name :: e.variables
  | .declaration name _ none _ => [name]
  | .assignment receiver value => receiver.variables ++ value.variables
  | .conditional c whenTrue whenFalse =>
    c.variables ++ (Stmt.allVariables whenTrue ++ Stmt.allVariables whenFalse)
  | .switch c arms => c.variables ++ Case.allVariables arms
  | .loop c body => c.variables ++ Stmt.allVariables body
  | .return e => e.variables

def Stmt.allVariables : List Stmt → List String
  | [] => []
  | s :: ss => s.variables ++ Stmt.allVariables ss

def Case.variables : Case → List String
  | .arm (some e) body => e.variables ++ Stmt.allVariables body
  | .arm none body => Stmt.allVariables body

def Case.allVariables : List Case → List String
  | [] => []
  | c :: cs => c.variables ++ Case.allVariables cs

end

namespace Case

/-- No arm stands behind a default arm. -/
def DefaultLast : List Case → Prop
  | [] => True
  | .arm none _ :: others => others = []
  | .arm (some _) _ :: others => DefaultLast others

/-- The arms as conditionals, each in the `ELSE` of the one before it. The body of the default arm
stands by itself in the last of them. -/
def chain (name : String) : List Case → List Stmt
  | [] => []
  | .arm none body :: _ => body
  | .arm (some e) body :: others =>
    [.conditional (.binary .equal (.access name none none) e none) body (chain name others)]

end Case

/-- The statements of a block that does what the switch does. -/
def Stmt.unswitched (name : String) (c : Expr) (arms : List Case) : List Stmt :=
  .declaration name none (some c) none :: Case.chain name arms

end Plc
