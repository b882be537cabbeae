import Plc.Error
import Plc.Evaluation
import Plc.Parser.Program
import Plc.Typing

/-!
From source text to the outcome of a run. Each phase needs the result of the one before it, so the
first error is the only one.
-/

namespace Plc

inductive Ending where
  | exit (value : Int)
  | error (cause : RuntimeError)
  /-- A sum of scales did not have 64 bits. The run broke off, and its machine is of no more use. -/
  | overflow
  /-- The bound on the work was reached. -/
  | exhausted
  deriving DecidableEq, Repr, Inhabited

structure Outcome where
  ending : Ending
  output : List String
  deriving DecidableEq, Repr, Inhabited

/-- A bound on the work that no run on a real machine reaches. -/
def ampleFuel : Nat := twoTo 62

/-- Runs a program on a machine; the lines are those that this run printed. -/
def Machine.run (m : Machine) (rule : DivisionScale) (fuel : Nat) (p : Program) :
    Outcome × Machine :=
  match Eval.program rule fuel p { m with output := #[] } with
  | .ok n after => (⟨.exit n, after.output.toList⟩, after)
  | .error (.error e) after => (⟨.error e, after.output.toList⟩, after)
  | .error .overflow after => (⟨.overflow, after.output.toList⟩, after)
  | .error .exhausted after => (⟨.exhausted, after.output.toList⟩, after)

namespace Program

def run (p : Program) (rule : DivisionScale) (fuel : Nat) : Outcome :=
  (Machine.fresh.run rule fuel p).1

end Program

namespace Source

def tokens (source : String) : Except Error (List Token) :=
  (Token.ofSource source).mapError fun (cause, offset) => .lex cause offset

def parse (source : String) : Except Error Program := do
  let ts ← tokens source
  (Program.ofTokens ts).mapError fun (cause, offset) => .parse cause offset

theorem parse_of_tokens {source : String} {ts : List Token}
    (read : Token.ofSource source = .ok ts) : parse source =
      (Program.ofTokens ts).mapError fun (cause, offset) => .parse cause offset := by
  rw [parse, tokens, read]
  rfl

def check (source : String) : Except Error Program := do
  let p ← parse source
  p.check.mapError .analysis

def run (source : String) (rule : DivisionScale) (fuel : Nat) : Except Error Outcome := do
  let p ← check source
  .ok (p.run rule fuel)

end Source

end Plc
