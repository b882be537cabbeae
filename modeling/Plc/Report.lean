import Plc.Error
import Plc.Text.Line

/-!
Errors as people read them: one line, or a diagnostic with the line of the source that is at fault
and a caret under the place.
-/

namespace Plc

structure Report where
  phase : Phase
  message : String
  offset : Option Nat
  deriving DecidableEq, Repr, Inhabited

def Error.report (e : Error) : Report := ⟨e.phase, e.message, e.offset?⟩

structure Surroundings where
  source : Option String
  file : Option String
  color : Bool
  deriving Repr, Inhabited

namespace Report

inductive Paint where
  | red
  | blue

def Paint.code : Paint → String
  | .red => "1;31"
  | .blue => "1;34"

def painted (color : Bool) (paint : Paint) (text : String) : String :=
  if color then "\x1b[" ++ paint.code ++ "m" ++ text ++ "\x1b[0m" else text

def oneLine (r : Report) : String :=
  let text := r.phase.text ++ ": " ++ r.message
  match r.offset with
  | some offset => text ++ " at offset " ++ toString offset
  | none => text

/-- The line at fault with its number, and a caret below the column; nothing where there is no such
line. -/
def excerpt (color : Bool) (source : List Char) (p : Position) : String :=
  match (linesOf source)[p.line - 1]? with
  | none => ""
  | some line =>
    let number := toString p.line
    let margin := String.ofList (List.replicate (number.length + 2 + p.column) ' ')
    "  " ++ painted color .blue number ++ " " ++ String.ofList line ++ "\n" ++
      margin ++ painted color .red "^" ++ "\n"

def place (around : Surroundings) (offset : Nat) : String :=
  let arrow := "  " ++ painted around.color .blue "-->" ++ " "
  match around.source with
  | none => arrow ++ "offset " ++ toString offset ++ "\n"
  | some source =>
    let p := Position.locate source.toList offset
    arrow ++ around.file.getD "<input>" ++ ":" ++ toString p.line ++ ":" ++ toString p.column ++
      "\n" ++ excerpt around.color source.toList p

def diagnostic (r : Report) (around : Surroundings) : String :=
  painted around.color .red r.phase.text ++ ": " ++ r.message ++ "\n" ++
    match r.offset with
    | some offset => place around offset
    | none => ""

end Report

end Plc
