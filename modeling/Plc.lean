import Plc.Main
import Plc.Program.Erase
import Plc.Proofs.Watch.Runs
import Plc.Session
import Plc.Proofs.StoreLaw
import Plc.Proofs.Nesting
import Plc.Proofs.Acyclic
import Plc.Proofs.Scopes
import Plc.Proofs.Typing.Judgement
import Plc.Proofs.Typing.Sound
import Plc.Proofs.Discipline
import Plc.Proofs.Discipline.Invariant
import Plc.Proofs.Discipline.Steps
import Plc.Proofs.Discipline.Expressions
import Plc.Proofs.Discipline.Statements
import Plc.Proofs.Discipline.Program
import Plc.Proofs.Operands
import Plc.Proofs.Names
import Plc.Proofs.Grammar
import Plc.Proofs.Discipline.Source
import Plc.Proofs.Kinds
import Plc.Proofs.Preservation
import Plc.Proofs.Progress
import Plc.Proofs.Denotation
import Plc.Proofs.Syntax
import Plc.Proofs.Syntax.Steps
import Plc.Proofs.Syntax.Reads
import Plc.Proofs.Syntax.Sound
import Plc.Proofs.Syntax.Finds
import Plc.Proofs.Syntax.Complete
import Plc.Proofs.Syntax.Exact
import Plc.Proofs.Syntax.Lookahead
import Plc.Proofs.Syntax.Prefix
import Plc.Proofs.Typing.Alike
import Plc.Proofs.Typing.Complete
import Plc.Proofs.Typing.Tables
import Plc.Proofs.Typing.Decides
import Plc.Proofs.Lexical
import Plc.Proofs.Lexical.Literals
import Plc.Proofs.Lexical.Starts
import Plc.Proofs.Lexical.Numbers
import Plc.Proofs.Lexical.Lexemes
import Plc.Proofs.Lexical.Tiling
import Plc.Proofs.Lexical.Exact
import Plc.Proofs.Missing
import Plc.Proofs.Blind
import Plc.Proofs.Typing.Decorates
import Plc.Proofs.Calls
import Plc.Proofs.Calls.Runs
import Plc.Proofs.Calls.Noted
import Plc.Proofs.Calls.Parents
import Plc.Proofs.Calls.Resolved
import Plc.Proofs.ScopeLaw
import Plc.Proofs.Restoration
import Plc.Proofs.Callees
import Plc.Proofs.Depth
import Plc.Proofs.Halting
import Plc.Proofs.Halting.Runs
import Plc.Proofs.Halting.Program
import Plc.Proofs.Recoding
import Plc.Proofs.Recoding.Runs
import Plc.Proofs.Unwinding
import Plc.Proofs.Constants
import Plc.Proofs.Lines
import Plc.Proofs.Lexical.Blanks
import Plc.Proofs.Diagnostics
import Plc.Proofs.Syntax.Offsets
import Plc.Proofs.Layout
import Plc.Program.Rename
import Plc.Proofs.Renaming
import Plc.Proofs.Renaming.Typing
import Plc.Proofs.Renaming.Runs
import Plc.Proofs.Renaming.Program
import Plc.Proofs.Rounding
import Plc.Proofs.Scopes.Nested
import Plc.Proofs.Fuel
import Plc.Proofs.Operators
import Plc.Proofs.Syntax.Written
import Plc.Proofs.ValueLaw.Runs
import Plc.Proofs.Overflow
import Plc.Proofs.Scales
import Plc.Proofs.Literals
import Plc.Proofs.Literals.Printed
import Plc.Proofs.Literals.Quoted
import Plc.Proofs.Syntax.Faults
import Plc.Proofs.Ordering
import Plc.Proofs.Equality
import Plc.Program.Chain
import Plc.Proofs.Regular
import Plc.Proofs.Twins
import Plc.Proofs.Twins.Runs
import Plc.Proofs.Switch
import Plc.Proofs.Switch.Chain
import Plc.Proofs.Lexical.Joined
import Plc.Proofs.Lines.Order
import Plc.Proofs.Typing.Onward
import Plc.Proofs.Typing.Reuse
import Plc.Cursor
import Plc.Token.Walk
import Plc.Parser.Walk
import Plc.Proofs.Cursor
import Plc.Proofs.Lexical.Places
import Plc.Proofs.Syntax.Places
import Plc.Proofs.Syntax.Places.Program
