import Plc.Outcome
import Plc.Report

/-!
The command line, as a function from the arguments and the bytes of the file to an exit code and the
two texts that are printed.
-/

namespace Plc.Command

def version : String := "0.1.0"

structure Options where
  file : Option String
  tokens : Bool
  check : Bool
  rule : DivisionScale
  version : Bool
  deriving Repr, Inhabited

def Options.initial : Options := ⟨none, false, false, .dividend, false⟩

def scale? (text : String) : Option DivisionScale :=
  (digits? text.toList).bind fun n => if n ≤ maxUInt32 then some (.fixed n) else none

/-- Flags of one letter may stand together behind one `-`. -/
def letters (o : Options) : List Char → Option Options
  | [] => some o
  | 't' :: cs => letters { o with tokens := true } cs
  | 'c' :: cs => letters { o with check := true } cs
  | 'v' :: cs => letters o cs
  | 'V' :: cs => letters { o with version := true } cs
  | _ => none

def file (o : Options) (name : String) : Option Options :=
  if o.file.isSome then none else some { o with file := some name }

/-- Options and one file in any order; `--` ends the options. -/
def options (o : Options) : List String → Option Options
  | [] => some o
  | "--" :: names => names.foldlM file o
  | "--tokens" :: args => options { o with tokens := true } args
  | "--check" :: args => options { o with check := true } args
  | "--verbose" :: args => options o args
  | "--version" :: args => options { o with version := true } args
  | "--scale" :: n :: args => do
    let rule ← scale? n
    options { o with rule } args
  | arg :: args =>
    match arg.toList with
    | '-' :: '-' :: 's' :: 'c' :: 'a' :: 'l' :: 'e' :: '=' :: n => do
      let rule ← scale? (String.ofList n)
      options { o with rule } args
    | '-' :: c :: cs => do
      let o ← letters o (c :: cs)
      options o args
    | _ => do
      let o ← file o arg
      options o args

structure Response where
  code : Nat
  stdout : String
  stderr : String
  deriving DecidableEq, Repr, Inhabited

def textOfLines (lines : List String) : String := String.join (lines.map (· ++ "\n"))

def padRight (width : Nat) (text : String) : String :=
  text ++ String.ofList (List.replicate (width - text.length) ' ')

def padLeft (width : Nat) (text : String) : String :=
  String.ofList (List.replicate (width - text.length) ' ') ++ text

def separator : String := String.ofList (List.replicate 60 '=')

def tokenLine (i : Nat) (t : Token) : String :=
  padLeft 4 (toString i) ++ ": " ++ padRight 12 t.kind.text ++ " @" ++
    padRight 6 (toString t.offset) ++ " | " ++ t.text

def tokenTable (file : String) (ts : List Token) : List String :=
  ["Tokens for '" ++ file ++ "':", separator] ++ ts.mapIdx tokenLine ++
    [separator, "Total tokens: " ++ toString ts.length]

def summary (file : String) (p : Program) : String :=
  "ok " ++ file ++ ": " ++ toString p.globals.length ++ " global(s), " ++
    toString p.functions.length ++ " function(s)"

def failure (file source : String) (e : Error) : Response :=
  ⟨1, "", e.report.diagnostic ⟨some source, some file, false⟩ ++ "\n"⟩

/-- The exit code of a value of 32 bits is its last byte. -/
def exitCode? (n : Int) : Option Nat :=
  if isInt32 n then some (n % 256).toNat else none

/-- The exit code of a run that broke off. The text that explains it names places in the libraries
and is no part of the response. -/
def brokenOff : Nat := 101

def runResponse (file source : String) (o : Outcome) : Response :=
  let stdout := textOfLines o.output
  match o.ending with
  | .exit n =>
    match exitCode? n with
    | some code => ⟨code, stdout, ""⟩
    | none =>
      ⟨1, stdout, "error: exit value " ++ toString n ++ " does not fit in an exit code\n"⟩
  | .error e => { failure file source (.runtime e) with stdout }
  | .overflow => ⟨brokenOff, stdout, ""⟩
  | .exhausted => ⟨1, stdout, "error: evaluation is too deep\n"⟩

def respondTo (o : Options) (file source : String) (fuel : Nat) : Response :=
  if o.tokens then
    match Source.tokens source with
    | .ok ts => ⟨0, textOfLines (tokenTable file ts), ""⟩
    | .error e => failure file source e
  else if o.check then
    match Source.check source with
    | .ok p => ⟨0, textOfLines [summary file p], ""⟩
    | .error e => failure file source e
  else
    match Source.run source o.rule fuel with
    | .ok outcome => runResponse file source outcome
    | .error e => failure file source e

def unreadable (file reason : String) : Response :=
  ⟨1, "", "error: Failed to read file '" ++ file ++ "': " ++ reason ++ "\n"⟩

/-- The bytes of the file, if there is such a file, as source text. -/
def sourceOf (bytes : Option ByteArray) : Except String String :=
  match bytes with
  | none => .error "No such file or directory (os error 2)"
  | some bytes =>
    match String.fromUTF8? bytes with
    | some source => .ok source
    | none => .error "stream did not contain valid UTF-8"

def usage : Response := ⟨2, "", "error: usage: plc [-t] [-c] [--scale DIGITS] FILE\n"⟩

/-- The file that the arguments ask for, if they ask for one. -/
def fileOf (args : List String) : Option String := (options .initial args).bind Options.file

def respond (args : List String) (bytes : Option ByteArray) (fuel : Nat) : Response :=
  match options .initial args with
  | none => usage
  | some o =>
    if o.version then ⟨0, "plc " ++ version ++ "\n", ""⟩
    else
      match o.file with
      | none => usage
      | some file =>
        match sourceOf bytes with
        | .ok source => respondTo o file source fuel
        | .error reason => unreadable file reason

end Plc.Command
