import Plc.Proofs.ValueLaw.Runs

/-!
Runs that break off. Only a product or a quotient of decimals breaks a run off, and only where its
scale does not have 64 bits; both operands are there at a moment of the run, or are integers that
stand for decimals. This is a value law about where decimals come from.
-/

namespace Plc

/-- The decimal is there at one of these moments, or it is an integer as an operand. -/
def Arises (moments : List Moment) (d : Decimal) : Prop :=
  (∃ x ∈ moments, x.Shows (.decimal d)) ∨ ∃ n, d = .ofInt n

/-- An operator breaks off on decimals that arise. -/
def Overflown (rule : DivisionScale) (moments : List Moment) : Prop :=
  ∃ (op : Operator) (a b : Decimal), Arises moments a ∧ Arises moments b ∧ op.Overflows rule a b

variable {rule : DivisionScale} {moments : List Moment} {v : Value} {d : Decimal}

theorem arises_later (x : Moment) (arises : Arises moments d) : Arises (x :: moments) d := by
  rcases arises with ⟨y, member, shows⟩ | stands
  · exact .inl ⟨y, List.mem_cons_of_mem x member, shows⟩
  · exact .inr stands

theorem arises_evaluated (e : Expr) (m : Machine) :
    Arises (⟨.evaluated e (.decimal d), m⟩ :: moments) d :=
  .inl ⟨_, List.mem_cons_self, .inr (.inr (.inr (.inl ⟨e, rfl⟩)))⟩

theorem arises_of_denotes (denotes : v.Denotes d)
    (arises : ∀ a, v = .decimal a → Arises moments a) : Arises moments d := by
  rcases denotes with is | ⟨n, -, rfl⟩
  · exact arises d is
  · exact .inr ⟨n, rfl⟩

def ValueLaw.arising (rule : DivisionScale) : ValueLaw rule where
  code _ := True
  valid moments v := ∀ d, v = .decimal d → Arises moments d
  lasts x arises d is := arises_later x (arises d is)
  nil _ _ := nofun
  boolean _ _ _ := nofun
  list _ _ _ := nofun
  literal {l slot} m moments _ d is := by
    rw [is]
    exact arises_evaluated _ m
  operation m _ _ _ _ d is := by
    rw [is]
    exact arises_evaluated _ m
  broken := Overflown rule
  overflow {op h l r moments} first second overflown := by
    obtain ⟨a, b, left, right, overflows⟩ := Operation.apply_overflow overflown
    exact ⟨op, a, b, arises_of_denotes left first, arises_of_denotes right second, overflows⟩
  later x := by
    rintro ⟨op, a, b, first, second, overflows⟩
    exact ⟨op, a, b, arises_later x first, arises_later x second, overflows⟩

theorem overflown_of_ending {p : Program} {fuel : Nat}
    (broken : (p.run rule fuel).ending = .overflow) :
    Overflown rule (Machine.fresh.history rule fuel p).moments :=
  (ValueLaw.arising rule).broken_run fuel (fun _ _ => trivial) broken

end Plc
