import Plc.Program
import Plc.Proofs.Denotation

/-!
The grammar, as derivations: which lists of tokens are written forms of which trees. It says nothing
of reading from the front, of how far a parser looks ahead or of faults. Keywords are identifiers
known by their text, and only the place tells whether they count: a statement that starts with
another word than those of `statementWords` is an expression or an assignment, and a block holds no
statement that starts with a word that ends it.
-/

namespace Plc.Grammar

inductive Separated {α : Type} (Item : List Token → α → Prop) : List Token → List α → Prop where
  | one {xs : List Token} {a : α} (item : Item xs a) : Separated Item xs [a]
  | more {xs ys : List Token} {comma : Token} {a : α} {as : List α} (item : Item xs a)
      (between : comma.isOperator ",") (others : Separated Item ys as) :
      Separated Item (xs ++ comma :: ys) (a :: as)

inductive Listed {α : Type} (Item : List Token → α → Prop) : List Token → List α → Prop where
  | none : Listed Item [] []
  | some {xs : List Token} {as : List α} (items : Separated Item xs as) : Listed Item xs as

inductive Many {α : Type} (Item : List Token → α → Prop) : List Token → List α → Prop where
  | nil : Many Item [] []
  | cons {xs ys : List Token} {a : α} {as : List α} (first : Item xs a)
      (others : Many Item ys as) : Many Item (xs ++ ys) (a :: as)

inductive NameOf : List Token → String → Prop where
  | name {t : Token} (word : t.kind = .identifier) : NameOf [t] t.text

inductive AnnotationOf : List Token → Option String → Prop where
  | absent : AnnotationOf [] none
  | present {colon : Token} {xs : List Token} {name : String} (sign : colon.isOperator ":")
      (type : NameOf xs name) : AnnotationOf (colon :: xs) (some name)

inductive InitialOf (Value : List Token → Expr → Prop) : List Token → Option Expr → Prop where
  | absent : InitialOf Value [] none
  | present {equals : Token} {xs : List Token} {e : Expr} (sign : equals.isOperator "=")
      (value : Value xs e) : InitialOf Value (equals :: xs) (some e)

/-- The kinds of binary operators, the loosest first. -/
inductive Layer where
  | logical
  | comparing
  | adding
  | multiplying
  deriving DecidableEq

namespace Layer

def operand : Layer → Option Layer
  | logical => some comparing
  | comparing => some adding
  | adding => some multiplying
  | multiplying => none

def operators : Layer → List Operator
  | logical => [.and, .or]
  | comparing => [.equal, .notEqual, .less, .greater]
  | adding => [.add, .subtract]
  | multiplying => [.multiply, .divide, .power]

end Layer

inductive OperatorOf : Layer → List Token → Operator → Prop where
  | plain {layer : Layer} {t : Token} {op : Operator} (known : op ∈ layer.operators)
      (sign : t.isOperator op.text) : OperatorOf layer [t] op
  | lessEqual {t equals : Token} (sign : t.isOperator "<") (equal : equals.isOperator "=")
      (glued : equals.offset = t.stop) : OperatorOf .comparing [t, equals] .lessEqual
  | greaterEqual {t equals : Token} (sign : t.isOperator ">") (equal : equals.isOperator "=")
      (glued : equals.offset = t.stop) : OperatorOf .comparing [t, equals] .greaterEqual

/-- The identifiers that are literals wherever an expression may start. -/
def literalWords : List String := ["NIL", "TRUE", "FALSE"]

inductive LiteralOf : Token → Literal → Prop where
  | nil {t : Token} (word : t.isKeyword "NIL") : LiteralOf t .nil
  | yes {t : Token} (word : t.isKeyword "TRUE") : LiteralOf t (.boolean true)
  | no {t : Token} (word : t.isKeyword "FALSE") : LiteralOf t (.boolean false)
  | integer {t : Token} {n : Int} (kind : t.kind = .integer)
      (text : IntegerText t.text.toList n) : LiteralOf t (.integer n)
  | decimal {t : Token} {d : Decimal} (kind : t.kind = .decimal)
      (text : DecimalText t.text.toList d) : LiteralOf t (.decimal d)
  | character {t : Token} {c : Char} {inner : List Char} (kind : t.kind = .character)
      (between : Between t.text.toList inner) (text : Means inner [c]) : LiteralOf t (.character c)
  | string {t : Token} {s : String} {inner : List Char} (kind : t.kind = .string)
      (between : Between t.text.toList inner) (text : Means inner s.toList) :
      LiteralOf t (.string s)

def IsReference (t : Token) : Prop := t.kind = .identifier ∧ t.text ∉ literalWords

/-- The expressions whose outermost operators, if any, are of a layer; those without any for none.
An operator takes operands of the next tighter layer on its right and, so that operators of one
layer group to the left, expressions of its own layer on its left. -/
inductive ExprOf : Option Layer → List Token → Expr → Prop where
  | literal {t : Token} {l : Literal} (denotes : LiteralOf t l) :
      ExprOf none [t] (.literal l none)
  | access {t : Token} (name : IsReference t) : ExprOf none [t] (.access t.text none none)
  | element {t opening closing : Token} {xs : List Token} {index : Expr} (name : IsReference t)
      (opens : opening.isOperator "[") (inner : ExprOf (some .logical) xs index)
      (closes : closing.isOperator "]") :
      ExprOf none (t :: opening :: (xs ++ [closing])) (.element t.text index none none)
  | call {t opening closing : Token} {xs : List Token} {args : List Expr} (name : IsReference t)
      (opens : opening.isOperator "(") (inner : Listed (ExprOf (some .logical)) xs args)
      (closes : closing.isOperator ")") :
      ExprOf none (t :: opening :: (xs ++ [closing])) (.call t.text args none none)
  | group {opening closing : Token} {xs : List Token} {e : Expr} (opens : opening.isOperator "(")
      (inner : ExprOf (some .logical) xs e) (closes : closing.isOperator ")") :
      ExprOf none (opening :: (xs ++ [closing])) (.group e none)
  | operand {layer : Layer} {xs : List Token} {e : Expr} (inner : ExprOf layer.operand xs e) :
      ExprOf (some layer) xs e
  | binary {layer : Layer} {xs ys zs : List Token} {left right : Expr} {op : Operator}
      (first : ExprOf (some layer) xs left) (sign : OperatorOf layer ys op)
      (second : ExprOf layer.operand zs right) :
      ExprOf (some layer) (xs ++ (ys ++ zs)) (.binary op left right none)

def ValueOf : List Token → Expr → Prop := ExprOf (some .logical)

def statementWords : List String := ["LET", "IF", "SWITCH", "WHILE", "RETURN"]

def armEnds : List String := ["CASE", "DEFAULT", "END"]

def startsWith (words : List String) (xs : List Token) : Bool :=
  xs.head?.any fun t => words.any t.isKeyword

mutual

inductive StmtOf : List Token → Stmt → Prop where
  | declaration {word semicolon : Token} {names types values : List Token} {name : String}
      {typeName : Option String} {value : Option Expr} (starts : word.isKeyword "LET")
      (named : NameOf names name) (typed : AnnotationOf types typeName)
      (initial : InitialOf ValueOf values value) (either : typeName ≠ none ∨ value ≠ none)
      (ends : semicolon.isOperator ";") :
      StmtOf (word :: (names ++ (types ++ (values ++ [semicolon]))))
        (.declaration name typeName value none)
  | conditional {word opening closing : Token} {xs ys zs : List Token} {c : Expr}
      {whenTrue whenFalse : List Stmt} (starts : word.isKeyword "IF") (condition : ValueOf xs c)
      (opens : opening.isKeyword "DO") (first : BlockOf ["ELSE", "END"] ys whenTrue)
      (second : ElseOf zs whenFalse) (ends : closing.isKeyword "END") :
      StmtOf (word :: (xs ++ opening :: (ys ++ (zs ++ [closing]))))
        (.conditional c whenTrue whenFalse)
  | switch {word closing : Token} {xs ys zs : List Token} {c : Expr} {arms default : List Case}
      (starts : word.isKeyword "SWITCH") (condition : ValueOf xs c) (cases : Many ArmOf ys arms)
      (last : DefaultOf zs default) (ends : closing.isKeyword "END") :
      StmtOf (word :: (xs ++ (ys ++ (zs ++ [closing])))) (.switch c (arms ++ default))
  | loop {word opening closing : Token} {xs ys : List Token} {c : Expr} {body : List Stmt}
      (starts : word.isKeyword "WHILE") (condition : ValueOf xs c) (opens : opening.isKeyword "DO")
      (inner : BlockOf ["END"] ys body) (ends : closing.isKeyword "END") :
      StmtOf (word :: (xs ++ opening :: (ys ++ [closing]))) (.loop c body)
  | return {word semicolon : Token} {xs : List Token} {e : Expr} (starts : word.isKeyword "RETURN")
      (value : ValueOf xs e) (ends : semicolon.isOperator ";") :
      StmtOf (word :: (xs ++ [semicolon])) (.return e)
  | assignment {equals semicolon : Token} {xs ys : List Token} {receiver e : Expr}
      (other : startsWith statementWords xs = false) (target : ValueOf xs receiver)
      (sign : equals.isOperator "=") (value : ValueOf ys e) (ends : semicolon.isOperator ";") :
      StmtOf (xs ++ equals :: (ys ++ [semicolon])) (.assignment receiver e)
  | expression {semicolon : Token} {xs : List Token} {e : Expr}
      (other : startsWith statementWords xs = false) (value : ValueOf xs e)
      (ends : semicolon.isOperator ";") : StmtOf (xs ++ [semicolon]) (.expression e)

/-- Statements none of which starts with a word that would end the block. -/
inductive BlockOf : List String → List Token → List Stmt → Prop where
  | nil {words : List String} : BlockOf words [] []
  | cons {words : List String} {xs ys : List Token} {s : Stmt} {ss : List Stmt}
      (inside : startsWith words xs = false) (first : StmtOf xs s)
      (others : BlockOf words ys ss) : BlockOf words (xs ++ ys) (s :: ss)

inductive ElseOf : List Token → List Stmt → Prop where
  | absent : ElseOf [] []
  | present {word : Token} {xs : List Token} {ss : List Stmt} (starts : word.isKeyword "ELSE")
      (inner : BlockOf ["END"] xs ss) : ElseOf (word :: xs) ss

inductive ArmOf : List Token → Case → Prop where
  | arm {word colon : Token} {xs ys : List Token} {e : Expr} {ss : List Stmt}
      (starts : word.isKeyword "CASE") (value : ValueOf xs e) (sign : colon.isOperator ":")
      (inner : BlockOf armEnds ys ss) :
      ArmOf (word :: (xs ++ colon :: ys)) (.arm (some e) ss)

inductive DefaultOf : List Token → List Case → Prop where
  | absent : DefaultOf [] []
  | present {word : Token} {xs : List Token} {ss : List Stmt} (starts : word.isKeyword "DEFAULT")
      (inner : BlockOf armEnds xs ss) : DefaultOf (word :: xs) [.arm none ss]

end

inductive ListOf : List Token → Expr → Prop where
  | list {opening closing : Token} {xs : List Token} {es : List Expr}
      (opens : opening.isOperator "[") (inner : Listed ValueOf xs es)
      (closes : closing.isOperator "]") : ListOf (opening :: (xs ++ [closing])) (.list es none)

inductive GlobalOf : List Token → Global → Prop where
  | list {word semicolon : Token} {names types values : List Token} {name : String}
      {typeName : Option String} {value : Option Expr} (starts : word.isKeyword "LIST")
      (named : NameOf names name) (typed : AnnotationOf types typeName)
      (initial : InitialOf ListOf values value) (ends : semicolon.isOperator ";") :
      GlobalOf (word :: (names ++ (types ++ (values ++ [semicolon]))))
        ⟨name, typeName, true, true, value, none⟩
  | variable {word semicolon : Token} {names types values : List Token} {name : String}
      {typeName : Option String} {value : Option Expr} (starts : word.isKeyword "VAR")
      (named : NameOf names name) (typed : AnnotationOf types typeName)
      (initial : InitialOf ValueOf values value) (ends : semicolon.isOperator ";") :
      GlobalOf (word :: (names ++ (types ++ (values ++ [semicolon]))))
        ⟨name, typeName, true, false, value, none⟩
  | constant {word equals semicolon : Token} {names types xs : List Token} {name : String}
      {typeName : Option String} {e : Expr} (starts : word.isKeyword "VAL")
      (named : NameOf names name) (typed : AnnotationOf types typeName)
      (sign : equals.isOperator "=") (value : ValueOf xs e) (ends : semicolon.isOperator ";") :
      GlobalOf (word :: (names ++ (types ++ equals :: (xs ++ [semicolon]))))
        ⟨name, typeName, false, false, some e, none⟩

inductive ParameterOf : List Token → Parameter → Prop where
  | parameter {colon : Token} {names types : List Token} {name typeName : String}
      (named : NameOf names name) (sign : colon.isOperator ":") (typed : NameOf types typeName) :
      ParameterOf (names ++ colon :: types) ⟨name, typeName⟩

inductive FunctionOf : List Token → Function → Prop where
  | function {word opening closing start stop : Token} {names xs types ys : List Token}
      {name : String} {parameters : List Parameter} {returns : Option String} {body : List Stmt}
      (starts : word.isKeyword "FUN") (named : NameOf names name) (opens : opening.isOperator "(")
      (takes : Listed ParameterOf xs parameters) (closes : closing.isOperator ")")
      (typed : AnnotationOf types returns) (enters : start.isKeyword "DO")
      (inner : BlockOf ["END"] ys body) (leaves : stop.isKeyword "END") :
      FunctionOf
        (word :: (names ++ opening :: (xs ++ closing :: (types ++ start :: (ys ++ [stop])))))
        ⟨name, parameters, returns, body, none⟩

inductive ProgramOf : List Token → Program → Prop where
  | program {xs ys : List Token} {gs : List Global} {fs : List Function}
      (globals : Many GlobalOf xs gs) (functions : Many FunctionOf ys fs) :
      ProgramOf (xs ++ ys) ⟨gs, fs⟩

end Plc.Grammar
