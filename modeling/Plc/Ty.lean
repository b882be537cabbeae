/-!
The types of the language, which of them may stand where which is expected, and the records that
analysis keeps of variables and functions.
-/

namespace Plc

inductive Ty where
  | nil
  | boolean
  | integer
  | decimal
  | character
  | string
  /-- Above integer, decimal, character and string. -/
  | comparable
  /-- Above every type. -/
  | any
  deriving DecidableEq, Repr, Inhabited

namespace Ty

def all : List Ty := [.nil, .boolean, .integer, .decimal, .character, .string, .comparable, .any]

def name : Ty → String
  | .nil => "Nil"
  | .boolean => "Boolean"
  | .integer => "Integer"
  | .decimal => "Decimal"
  | .character => "Character"
  | .string => "String"
  | .comparable => "Comparable"
  | .any => "Any"

def ofName? (name : String) : Option Ty := all.find? fun t => t.name == name

def isComparable : Ty → Bool
  | .integer | .decimal | .character | .string => true
  | _ => false

/-- Whether a value of type `actual` may stand where `target` is expected. -/
def accepts (target actual : Ty) : Bool :=
  actual == target || target == .any || (target == .comparable && actual.isComparable)

end Ty

/-- A resolved variable. For a list, `ty` is the type of its elements. -/
structure Variable where
  name : String
  ty : Ty
  mutable : Bool
  list : Bool
  deriving DecidableEq, Repr, Inhabited

def Variable.single (name : String) (ty : Ty) (mutable : Bool) : Variable :=
  ⟨name, ty, mutable, false⟩

/-- A list variable always counts as mutable. -/
def Variable.ofList (name : String) (element : Ty) : Variable := ⟨name, element, true, true⟩

/-- A resolved function. Functions are told apart by name and arity. -/
structure Signature where
  name : String
  parameters : List Ty
  returns : Ty
  deriving DecidableEq, Repr, Inhabited

def Signature.arity (s : Signature) : Nat := s.parameters.length

end Plc
