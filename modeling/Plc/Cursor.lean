/-!
Going through a list place by place. A cursor sees the whole list and stands at one place of it, or
behind its end. To look ahead is safe everywhere; to take an entry there must be one, and a walk
that takes an entry where there is none breaks off. Nothing says how often a walk may go round, so
it is given a number of turns, and it has no outcome if it goes on when they are spent.
-/

namespace Plc

/-- Why a walk breaks off. -/
inductive Cursor.Stop (ε : Type) where
  | fault (error : ε)
  /-- There is no entry at the place, and one was taken. -/
  | outside (place : Nat)

abbrev Cursor (τ ε α : Type) := ReaderT (List τ) (StateT Nat (ExceptT (Cursor.Stop ε) Option)) α

/-- An answer and the place behind it, or why the walk broke off; `none` if it still went on. -/
abbrev Cursor.Outcome (ε α : Type) := Option (Except (Cursor.Stop ε) (α × Nat))

namespace Cursor

variable {τ ε α : Type}

def place : Cursor τ ε Nat := get

def atEnd : Cursor τ ε Bool := do
  return (← read).length ≤ (← get)

def peekAt (distance : Nat) : Cursor τ ε (Option τ) := do
  return (← read)[(← get) + distance]?

def peek : Cursor τ ε (Option τ) := peekAt 0

/-- The entry at the place; that there is one is for the caller to know. -/
def entry : Cursor τ ε τ := do
  let here ← place
  match (← read)[here]? with
  | some x => pure x
  | none => throw (.outside here)

def step : Cursor τ ε Unit := modify (· + 1)

def advance : Cursor τ ε τ := do
  let x ← entry
  step
  pure x

/-- The entries from a place on up to the one before this, of which all must be there. -/
def since (start : Nat) : Cursor τ ε (List τ) := do
  let stop ← get
  let all ← read
  if start ≤ stop && stop ≤ all.length then pure ((all.take stop).drop start)
  else throw (.outside stop)

def fault (error : ε) : Cursor τ ε α := throw (.fault error)

/-- No turn is left. -/
def spent : Cursor τ ε α := fun _ _ => none

end Cursor

end Plc
