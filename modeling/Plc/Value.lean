import Plc.Literal

/-!
Values at run time. A list is a place on the heap, shared by all that hold it; its elements may be
lists in turn. `text?`, `equal?` and `reaches?` follow lists into each other to a given depth and
have no answer below it. On a heap where no list reaches itself the number of lists is depth enough.
-/

namespace Plc

namespace Value

inductive Kind where
  | nil
  | boolean
  | character
  | string
  | integer
  | decimal
  | list
  deriving DecidableEq, Repr, Inhabited

def Kind.name : Kind → String
  | .nil => "Nil"
  | .boolean => "Boolean"
  | .character => "Character"
  | .string => "String"
  | .integer => "Integer"
  | .decimal => "Decimal"
  | .list => "List"

end Value

inductive Value where
  | nil
  | boolean (b : Bool)
  | character (c : Char)
  | string (s : String)
  | integer (n : Int)
  | decimal (d : Decimal)
  | list (place : Nat)
  deriving DecidableEq, Repr, Inhabited

/-- The elements of every list, by its place. -/
abbrev Heap := Array (List Value)

def Heap.elements (h : Heap) (place : Nat) : List Value := h[place]?.getD []

namespace Value

def kind : Value → Kind
  | .nil => .nil
  | .boolean _ => .boolean
  | .character _ => .character
  | .string _ => .string
  | .integer _ => .integer
  | .decimal _ => .decimal
  | .list _ => .list

def ofLiteral : Literal → Value
  | .nil => .nil
  | .boolean b => .boolean b
  | .character c => .character c
  | .string s => .string s
  | .integer n => .integer n
  | .decimal d => .decimal d

def text? (h : Heap) : (depth : Nat) → Value → Option String
  | _, .nil => some "NIL"
  | _, .boolean true => some "TRUE"
  | _, .boolean false => some "FALSE"
  | _, .character c => some c.toString
  | _, .string s => some s
  | _, .integer n => some (toString n)
  | _, .decimal d => some d.text
  | 0, .list _ => none
  | depth + 1, .list place => do
    let parts ← (h.elements place).mapM (text? h depth)
    some ("[" ++ ", ".intercalate parts ++ "]")

def allEqual? (equal? : Value → Value → Option Bool) : List Value → List Value → Option Bool
  | [], [] => some true
  | v :: vs, w :: ws => do
    if ← equal? v w then allEqual? equal? vs ws else some false
  | _, _ => some false

/-- Equality of values of one kind. Decimals are compared as numbers; lists are equal when they are
one list or have equal elements. -/
def equal? (h : Heap) : (depth : Nat) → Value → Value → Option Bool
  | _, .nil, .nil => some true
  | _, .boolean a, .boolean b => some (a == b)
  | _, .character a, .character b => some (a == b)
  | _, .string a, .string b => some (a == b)
  | _, .integer a, .integer b => some (a == b)
  | _, .decimal a, .decimal b => some (a.compare b == .eq)
  | depth, .list a, .list b =>
    if a = b then some true
    else
      match depth with
      | 0 => none
      | depth + 1 => allEqual? (equal? h depth) (h.elements a) (h.elements b)
  | _, _, _ => some false

/-- Whether `v` is the list at `target` or holds it, directly or through other lists. -/
def reaches? (h : Heap) (target : Nat) : (depth : Nat) → (v : Value) → Option Bool
  | depth, .list place =>
    if place = target then some true
    else
      match depth with
      | 0 => none
      | depth + 1 => (h.elements place).anyM (reaches? h target depth)
  | _, _ => some false

/-- The order of two values of one kind; nil and lists have none. -/
def compare? : Value → Value → Option Ordering
  | .boolean a, .boolean b => some (compare a b)
  | .character a, .character b => some (compare a b)
  | .string a, .string b => some (compare a b)
  | .integer a, .integer b => some (compare a b)
  | .decimal a, .decimal b => some (a.compare b)
  | _, _ => none

end Value

end Plc
