import Plc.Proofs.Blind
import Plc.Proofs.Calls.Parents
import Plc.Proofs.Fuel
import Plc.Proofs.Grammar
import Plc.Proofs.Halting.Runs
import Plc.Proofs.Overflow

/-!
Programs that halt. In an accepted program a function can call only those defined before it, itself
and `print`. Where none calls itself and nothing loops, functions can be priced in their order, each
at the depth of its body above the functions before it, and a run needs no more fuel than the last
of them costs.
-/

namespace Plc

open Watched

instance (f : Function) (name : String) (arity : Nat) : Decidable (f.Answers name arity) :=
  inferInstanceAs (Decidable (_ ∧ _))

/-- The function contains a call of its own name with as many arguments as it takes. -/
def Function.CallsItself (f : Function) : Prop := ∃ e ∈ f.expressions, e.Calls f.name f.arity

def Program.Loopless (p : Program) : Prop := ∀ s ∈ p.statements, ¬ s.IsLoop

instance (f : Function) : Decidable f.CallsItself :=
  inferInstanceAs (Decidable (∃ e ∈ f.expressions, e.Calls f.name f.arity))

instance (p : Program) : Decidable p.Loopless :=
  inferInstanceAs (Decidable (∀ s ∈ p.statements, ¬ s.IsLoop))

namespace Program

def rank (p : Program) (name : String) (arity : Nat) : Nat :=
  match p.functions.findIdx? fun f => f.Answers name arity with
  | some i => i + 1
  | none => 0

def height (p : Program) : Nat :=
  max (Expr.allDepth free (p.globals.filterMap Global.value))
    (Stmt.allDepth free (p.functions.flatMap Function.body))

/-- Every function is dearer than those before it by what its own tree may add. -/
def price (p : Program) : Costs := fun name arity => (p.rank name arity + 1) * (p.height + 1)

/-- The depth that no run of the program exceeds. -/
def depth (p : Program) : Nat := (p.functions.length + 2) * (p.height + 1)

def Layered (p : Program) : Prop :=
  ∀ before f after, p.functions = before ++ f :: after → ∀ e ∈ f.expressions, ∀ name arity,
    e.Calls name arity →
      (∃ g ∈ before, g.Answers name arity) ∨ ∀ g ∈ p.functions, ¬ g.Answers name arity

variable {p : Program} {name : String} {arity : Nat}

theorem rank_of_none (none : ∀ f ∈ p.functions, ¬ f.Answers name arity) :
    p.rank name arity = 0 := by
  have nowhere : p.functions.findIdx? (fun f => f.Answers name arity) = .none :=
    List.findIdx?_eq_none_iff.mpr fun f member => decide_eq_false (none f member)
  rw [rank, nowhere]

theorem rank_le_before {before rest : List Function} (split : p.functions = before ++ rest)
    {g : Function} (member : g ∈ before) (answers : g.Answers name arity) :
    p.rank name arity ≤ before.length := by
  have there : (before.findIdx? fun f => f.Answers name arity).isSome = true := by
    rw [List.findIdx?_isSome, List.any_eq_true]
    exact ⟨g, member, decide_eq_true answers⟩
  obtain ⟨i, found⟩ := Option.isSome_iff_exists.mp there
  have inside : i < before.length := (List.findIdx?_eq_some_iff_getElem.mp found).1
  rw [rank, split, List.findIdx?_append, found, Option.some_or]
  exact inside

theorem rank_le_length : p.rank name arity ≤ p.functions.length := by
  by_cases any : ∃ g ∈ p.functions, g.Answers name arity
  · obtain ⟨g, member, answers⟩ := any
    exact rank_le_before (List.append_nil _).symm member answers
  · rw [rank_of_none fun g member answers => any ⟨g, member, answers⟩]
    exact Nat.zero_le _

/-- The functions before the one that answers are as many as its rank says. -/
theorem rank_split {f : Function} (member : f ∈ p.functions) (answers : f.Answers name arity) :
    ∃ before g after, p.functions = before ++ g :: after ∧ g.Answers name arity ∧
      p.rank name arity = before.length + 1 := by
  have there : (p.functions.findIdx? fun f => f.Answers name arity).isSome = true := by
    rw [List.findIdx?_isSome, List.any_eq_true]
    exact ⟨f, member, decide_eq_true answers⟩
  obtain ⟨i, found⟩ := Option.isSome_iff_exists.mp there
  obtain ⟨inside, first, -⟩ := List.findIdx?_eq_some_iff_getElem.mp found
  refine ⟨p.functions.take i, p.functions[i], p.functions.drop (i + 1), ?_,
    of_decide_eq_true first, ?_⟩
  · rw [← List.drop_eq_getElem_cons inside, List.take_append_drop]
  · rw [rank, found, List.length_take, Nat.min_eq_left (Nat.le_of_lt inside)]

theorem price_le {bound : Nat} (rank : p.rank name arity ≤ bound) :
    p.price name arity ≤ (bound + 1) * (p.height + 1) :=
  Nat.mul_le_mul_right _ (Nat.succ_le_succ rank)

theorem body_height {f : Function} (member : f ∈ p.functions) :
    Stmt.allDepth free f.body ≤ p.height := by
  refine Nat.le_trans (Stmt.allDepth_le_of fun s inside => ?_) (Nat.le_max_right _ _)
  exact Stmt.depth_le_all (List.mem_flatMap.mpr ⟨f, member, inside⟩)

theorem value_height {g : Global} (member : g ∈ p.globals) {e : Expr} (value : g.value = some e) :
    e.depth free ≤ p.height :=
  Nat.le_trans (Expr.depth_le_all (List.mem_filterMap.mpr ⟨g, member, value⟩))
    (Nat.le_max_left _ _)

theorem within_of_layered (layered : p.Layered) {before after : List Function} {f : Function}
    (split : p.functions = before ++ f :: after) :
    Stmt.Within p.price ((before.length + 1) * (p.height + 1)) (Stmt.allParts f.body) := by
  intro s part e own x inside name arity calls
  have member : x ∈ f.expressions := Function.mem_expressions.mpr ⟨s, part, e, own, inside⟩
  apply price_le
  rcases layered before f after split x member name arity calls with ⟨g, earlier, answers⟩ | none
  · exact rank_le_before split earlier answers
  · rw [rank_of_none none]
    exact Nat.zero_le _

theorem body_price (layered : p.Layered) {before after : List Function} {f : Function}
    (split : p.functions = before ++ f :: after) (rank : p.rank name arity = before.length + 1) :
    Stmt.allDepth p.price f.body + 1 ≤ p.price name arity := by
  have member : f ∈ p.functions := split ▸ List.mem_append_right _ List.mem_cons_self
  have deep := Stmt.allDepth_le f.body (within_of_layered layered split)
  have low := body_height member
  rw [price, rank, Nat.succ_mul]
  omega

end Program

section

variable {q : Program} {Θ Δ : Env} {name : String} {arity : Nat} {s : Signature}

/-- Before the functions of a program nothing is known but what its own scope has, which they leave
alone. -/
theorem none_of_has (globals : GlobalsOk True Context.fresh.env q.globals Θ)
    (functions : FunctionsOk True Θ q.functions Δ) (has : Context.fresh.env.Has name arity s) :
    ∀ f ∈ q.functions, ¬ f.Answers name arity := by
  rintro f member ⟨rfl, rfl⟩
  have unbound := free_of_functions functions f member
  rw [own_of_globals globals] at unbound
  have outer := found_around parents_empty has unbound
  obtain ⟨j, -, own⟩ := List.exists_of_findSome?_eq_some outer
  rw [Scopes.ownFunction?_single] at own
  cases own

theorem layered_of_ok (globals : GlobalsOk True Context.fresh.env q.globals Θ)
    (functions : FunctionsOk True Θ q.functions Δ)
    (direct : ∀ f ∈ q.functions, ¬ f.CallsItself) : q.Layered := by
  rintro before f after split e inside name _ ⟨args, signature, slot, rfl, rfl⟩
  have member : f ∈ q.functions := split ▸ List.mem_append_right _ List.mem_cons_self
  obtain ⟨s, -, known⟩ := noted_of_functions functions split inside name args signature slot rfl
  rcases known with ⟨g, upTo, answers, -⟩ | ⟨-, has⟩
  · rcases List.mem_append.mp upTo with earlier | self
    · exact .inl ⟨g, earlier, answers⟩
    · obtain rfl := List.mem_singleton.mp self
      refine absurd ⟨_, inside, args, signature, slot, ?_, ?_⟩ (direct g member)
      · rw [answers.1]
      · exact answers.2.symm
  · rw [has_of_globals globals] at has
    exact .inr (none_of_has globals functions has)

theorem value_price (globals : GlobalsOk True Context.fresh.env q.globals Θ)
    (functions : FunctionsOk True Θ q.functions Δ) {g : Global} (member : g ∈ q.globals) {e : Expr}
    (value : g.value = some e) : e.depth q.price ≤ q.depth := by
  have within : Expr.Within q.price (q.height + 1) [e] := by
    rintro d single x inside name _ ⟨args, signature, slot, rfl, rfl⟩
    obtain rfl := List.mem_singleton.mp single
    obtain ⟨s, -, has⟩ :=
      noted_of_globals globals g member d value _ inside name args signature slot rfl
    rw [Program.price, Program.rank_of_none (none_of_has globals functions has)]
    omega
  have deep := Expr.depth_le e within
  have low := Program.value_height member value
  have room : 2 * (q.height + 1) ≤ q.depth := Nat.mul_le_mul_right _ (Nat.le_add_left 2 _)
  omega

theorem priced_of_ok (functions : FunctionsOk True Θ q.functions Δ) (layered : q.Layered)
    (loopless : q.Loopless) {f : Function} (member : f ∈ q.functions) (scope : Nat) :
    (Callable.function f scope).Priced q.price f.name f.arity := by
  refine ⟨fun s part => loopless s (List.mem_flatMap.mpr ⟨f, member, part⟩), ?_⟩
  obtain ⟨before, g, after, split, answers, rank⟩ := Program.rank_split member ⟨rfl, rfl⟩
  have there : g ∈ q.functions := split ▸ List.mem_append_right _ List.mem_cons_self
  obtain rfl : g = f := same_of_answers functions there member answers ⟨rfl, rfl⟩
  exact Program.body_price layered split rank

end

namespace Halting

variable {rule : DivisionScale} {cost : Costs} {fuel : Nat} {h : History}

theorem ready_fresh (positive : 1 ≤ cost "print" 1) :
    Ready cost { Machine.fresh with output := #[] } := by
  have nothing : ∀ p, (Heap.elements #[] p) = [] := fun p => by simp [Heap.elements]
  refine ⟨⟨?_, ?_, ?_⟩, ?_⟩
  · intro p cycle
    obtain ⟨q, holds, _⟩ := Relation.TransGen.head'_iff.mp cycle
    have inside : Value.list q ∈ Heap.elements #[] p := holds
    rw [nothing] at inside
    cases inside
  · intro p v member
    have inside : v ∈ Heap.elements #[] p := member
    rw [nothing] at inside
    cases inside
  · intro i c found
    simp [Machine.fresh, Machine.empty, Machine.inside] at found
  · intro i name arity f own
    simp only [Machine.fresh, Machine.inside, Machine.empty, Scopes.ownFunction?_bindFunction,
      Scopes.ownFunction?_addChild, Scopes.ownFunction?_single] at own
    split at own
    · next here =>
      cases own
      obtain ⟨-, -, rfl, rfl⟩ := here
      exact positive
    · cases own

theorem steady_defineFunction {f : Function} (ready : Ready cost h.machine)
    (priced : ∀ scope, (Callable.function f scope).Priced cost f.name f.arity) :
    Steady rule cost h (step (Eval.defineFunction f)) fun _ _ => True := by
  have scopes : Runs (fun _ k => k.machine.Priced cost) (fun _ _ => True) h
      (step (Eval.defineFunction f)) fun _ _ => True := by
    refine runs_step ?_
    unfold Eval.defineFunction
    cases h.machine.scopes.functionClash? h.machine.current f.name f.arity with
    | some r => exact ⟨ready.priced, trivial⟩
    | none =>
      refine ⟨fun i name arity g own => ?_, trivial⟩
      simp only [History.reach, History.come, Scopes.ownFunction?_bindFunction] at own
      split at own
      · next here =>
        cases own
        obtain ⟨-, -, rfl, rfl⟩ := here
        exact priced _
      · exact ready.priced i name arity g own
  have both := runs_and
    (StoreLaw.keeps_defineFunction (L := StoreLaw.acyclic rule) f ready.acyclic) scopes
  exact runs_imp (runs_mono both (fun _ both => ⟨both.1, both.2⟩) fun _ _ _ => trivial)
    fun _ _ _ _ => trivial

theorem alive_defineFunction (f : Function) : Alive h (step (Eval.defineFunction f)) :=
  alive_errs (errs_defineFunction f)

theorem steady_defineGlobal (fuel : Nat) (g : Global) (ready : Ready cost h.machine) :
    Steady rule cost h (defineGlobal rule fuel g) fun _ _ => True :=
  steady_of_opens (StoreLaw.keeps_defineGlobal fuel g ready.acyclic)
    (ScopeLaw.opens_defineGlobal g ready.priced)

theorem alive_defineGlobal {g : Global} (ready : Ready cost h.machine)
    (enough : ∀ e, g.value = some e → e.depth cost ≤ fuel) :
    Alive h (defineGlobal rule fuel g) := by
  obtain ⟨name, typeName, mutable, list, value, record⟩ := g
  cases value with
  | some e =>
    exact alive_then ((alive_at rule cost fuel).evaluate e ready (enough e rfl)) fun v _ =>
      alive_define record name mutable v
  | none =>
    cases list with
    | true => exact alive_then (alive_newList []) fun v _ => alive_define record name mutable v
    | false => exact alive_define record name mutable .nil

/-- One action after another for the members of a list, each of which leaves the machine ready. -/
theorem alive_forM {γ β : Type} {act : γ → Watched Unit} {next : Unit → Watched β} (cs : List γ)
    (ready : Ready cost h.machine)
    (each : ∀ c ∈ cs, ∀ k, Ready cost k.machine →
      Steady rule cost k (act c) (fun _ _ => True) ∧ Alive k (act c))
    (rest : ∀ k, Ready cost k.machine → Alive k (next ())) :
    Alive h (cs.forM act >>= next) := by
  induction cs generalizing h with
  | nil => exact rest h ready
  | cons c cs ih =>
    obtain ⟨steady, alive⟩ := each c List.mem_cons_self h ready
    show Alive h ((act c >>= fun _ => cs.forM act) >>= next)
    rw [bind_assoc]
    exact alive_bind steady alive fun _ k onward _ =>
      ih onward.ready fun d member => each d (List.mem_cons_of_mem c member)

theorem alive_main {p : Program} (ready : Ready p.price h.machine) (enough : p.depth ≤ fuel) :
    Alive h (match h.machine.scopes.findFunction? h.machine.current "main" 0 with
      | none => step (Eval.fail .mainMissing)
      | some main => do
        let v ← invoke rule fuel main []
        step (Eval.mainResult v)) := by
  cases found : h.machine.scopes.findFunction? h.machine.current "main" 0 with
  | none => exact alive_errs (errs_fail _)
  | some main =>
    have priced : main.Priced p.price "main" 0 := (ScopeLaw.priced p.price).found ready.priced found
    have price : p.price "main" 0 ≤ fuel := by
      have last : p.price "main" 0 ≤ (p.functions.length + 1) * (p.height + 1) :=
        Program.price_le Program.rank_le_length
      have room : (p.functions.length + 1) * (p.height + 1) ≤ p.depth :=
        Nat.mul_le_mul_right _ (Nat.le_succ _)
      omega
    exact alive_then ((alive_at rule p.price fuel).invoke main [] "main" 0 ready nofun priced price)
      fun v _ => alive_errs (errs_mainResult v)

theorem alive_program {q : Program} {Δ : Env} (ok : ProgramOk True Context.fresh.env q Δ)
    (loopless : q.Loopless) (direct : ∀ f ∈ q.functions, ¬ f.CallsItself)
    (enough : q.depth ≤ fuel) :
    Alive (.start { Machine.fresh with output := #[] }) (program rule fuel q) := by
  obtain ⟨Θ, globals, functions⟩ := ok.definitions
  have layered := layered_of_ok globals functions direct
  have positive : 1 ≤ q.price "print" 1 := Nat.mul_pos (Nat.succ_pos _) (Nat.succ_pos _)
  have values : ∀ g ∈ q.globals, ∀ k, Ready q.price k.machine →
      Steady rule q.price k (defineGlobal rule fuel g) (fun _ _ => True) ∧
        Alive k (defineGlobal rule fuel g) := by
    intro g member k ready
    refine ⟨steady_defineGlobal fuel g ready, alive_defineGlobal ready fun e value => ?_⟩
    exact Nat.le_trans (value_price globals functions member value) enough
  have bodies : ∀ f ∈ q.functions, ∀ k, Ready q.price k.machine →
      Steady rule q.price k (step (Eval.defineFunction f)) (fun _ _ => True) ∧
        Alive k (step (Eval.defineFunction f)) := fun f member k ready =>
    ⟨steady_defineFunction ready (priced_of_ok functions layered loopless member),
      alive_defineFunction f⟩
  exact alive_forM q.globals (ready_fresh positive) values fun k ready =>
    alive_forM q.functions ready bodies fun l ready => runs_get (runs_get (alive_main ready enough))

end Halting

theorem Expr.calls_erase {e : Expr} {name : String} {arity : Nat} :
    e.erase.Calls name arity ↔ e.Calls name arity := by
  constructor
  · rintro ⟨args, signature, slot, is, rfl⟩
    cases e with
    | call other given _ _ =>
      simp only [Expr.erase, Expr.call.injEq] at is
      obtain ⟨rfl, rfl, -⟩ := is
      exact ⟨given, _, _, rfl, (Eval.length_eraseAll given).symm⟩
    | _ => cases is
  · rintro ⟨args, signature, slot, rfl, rfl⟩
    exact ⟨Expr.eraseAll args, none, none, rfl, Eval.length_eraseAll args⟩

theorem Function.expressions_erase (f : Function) :
    f.erase.expressions = f.expressions.map Expr.erase := by
  simp only [Function.expressions, Function.erase, Stmt.allParts_erase, List.flatMap_map,
    Stmt.own_erase, List.map_flatMap, List.flatMap_assoc, Expr.parts_erase]

theorem Function.callsItself_erase {f : Function} : f.erase.CallsItself ↔ f.CallsItself := by
  simp only [Function.CallsItself, Function.expressions_erase, List.mem_map,
    exists_exists_and_eq_and, Function.name_erase, Function.arity_erase, Expr.calls_erase]

theorem Stmt.isLoop_erase {s : Stmt} : s.erase.IsLoop ↔ s.IsLoop := by
  cases s <;> exact Iff.rfl

theorem Program.statements_erase (p : Program) :
    p.erase.statements = p.statements.map Stmt.erase := by
  simp only [Program.statements, Program.erase, List.flatMap_map, List.map_flatMap, Function.erase,
    Stmt.allParts_erase]

theorem Program.loopless_erase {p : Program} : p.erase.Loopless ↔ p.Loopless := by
  simp only [Program.Loopless, Program.statements_erase, List.forall_mem_map, Stmt.isLoop_erase]

theorem Program.direct_erase {p : Program} :
    (∀ f ∈ p.erase.functions, ¬ f.CallsItself) ↔ ∀ f ∈ p.functions, ¬ f.CallsItself := by
  simp only [Program.erase, List.forall_mem_map, Function.callsItself_erase]

/-- An accepted program without loops in which no function calls itself comes to an end, whatever
the division rule: no run of it is deeper than its functions piled upon each other. It ends with an
exit value or an error, unless a product or a quotient of its decimals has too long a scale. -/
theorem program_halts {p q : Program} (accepted : p.check = .ok q) (loopless : p.Loopless)
    (direct : ∀ f ∈ p.functions, ¬ f.CallsItself) (rule : DivisionScale) {fuel : Nat}
    (enough : q.depth ≤ fuel) :
    p.run rule fuel = q.run rule fuel ∧
      ((∃ n, (p.run rule fuel).ending = .exit n) ∨ (∃ e, (p.run rule fuel).ending = .error e) ∨
        ((p.run rule fuel).ending = .overflow ∧
          Overflown rule (Machine.fresh.history rule fuel q).moments)) := by
  obtain ⟨Δ, ok, -, erase⟩ := check_sound accepted
  have same : p.run rule fuel = q.run rule fuel := (run_alike rfl erase.symm rule fuel).1
  have looplessQ : q.Loopless :=
    Program.loopless_erase.mp (erase ▸ Program.loopless_erase.mpr loopless)
  have directQ : ∀ f ∈ q.functions, ¬ f.CallsItself :=
    Program.direct_erase.mp (erase ▸ Program.direct_erase.mpr direct)
  have alive : Halting.Alive (.start { Machine.fresh with output := #[] })
      (Watched.program rule fuel q) := Halting.alive_program ok looplessQ directQ enough
  have ends := (runs_program alive).2
  refine ⟨same, ?_⟩
  rw [same]
  cases ended : (q.run rule fuel).ending with
  | exit n => exact .inl ⟨n, rfl⟩
  | error e => exact .inr (.inl ⟨e, rfl⟩)
  | overflow => exact .inr (.inr ⟨rfl, overflown_of_ending ended⟩)
  | exhausted =>
    rw [Program.run] at ended
    rw [ended] at ends
    exact absurd rfl ends

def calling : String :=
  "LIST xs = [2]; FUN f(n: Integer): Integer DO RETURN n + n; END " ++
    "FUN g(n: Integer): Integer DO RETURN f(f(n)); END " ++
    "FUN main(): Integer DO print(xs); RETURN g(2); END"

theorem program_halts_calling : ∃ p, Source.parse calling = .ok p ∧ ∃ q, p.check = .ok q ∧
    p.Loopless ∧ (∀ f ∈ p.functions, ¬ f.CallsItself) ∧
    (p.run .dividend q.depth = q.run .dividend q.depth ∧
      ((∃ n, (p.run .dividend q.depth).ending = .exit n) ∨
        (∃ e, (p.run .dividend q.depth).ending = .error e) ∨
        ((p.run .dividend q.depth).ending = .overflow ∧
          Overflown .dividend (Machine.fresh.history .dividend q.depth q).moments))) ∧
    p.run .dividend q.depth = ⟨.exit 8, ["[2]"]⟩ := by
  have known : ∃ p ∈ (Source.parse calling).toOption, ∃ q ∈ p.check.toOption, p.Loopless ∧
      (∀ f ∈ p.functions, ¬ f.CallsItself) ∧ p.run .dividend q.depth = ⟨.exit 8, ["[2]"]⟩ := by
    decide +kernel
  obtain ⟨p, read, known⟩ := exists_ok known
  obtain ⟨q, accepted, loopless, direct, ends⟩ := exists_ok known
  exact ⟨p, read, q, accepted, loopless, direct,
    program_halts accepted loopless direct .dividend (Nat.le_refl _), ends⟩

/-- Sixty-three squares of 0.1 without a loop: each doubles the scale, and the last is too long. -/
def squares : String :=
  "FUN f(d: Decimal): Decimal DO RETURN d * d; END " ++
    "FUN g(d: Decimal): Decimal DO RETURN f(f(f(d))); END " ++
    "FUN h(d: Decimal): Decimal DO RETURN g(g(g(d))); END " ++
    "FUN main(): Integer DO IF h(h(h(h(h(h(h(0.1))))))) < 1.0 DO RETURN 0; ELSE RETURN 1; END END"

theorem program_halts_squares : ∃ p, Source.parse squares = .ok p ∧ ∃ q, p.check = .ok q ∧
    p.Loopless ∧ (∀ f ∈ p.functions, ¬ f.CallsItself) ∧
    ∀ fuel, q.depth ≤ fuel → (p.run .dividend fuel).ending = .overflow := by
  have known : ∃ p ∈ (Source.parse squares).toOption, ∃ q ∈ p.check.toOption, p.Loopless ∧
      (∀ f ∈ p.functions, ¬ f.CallsItself) ∧ (p.run .dividend q.depth).ending = .overflow := by
    decide +kernel
  obtain ⟨p, read, known⟩ := exists_ok known
  obtain ⟨q, accepted, loopless, direct, ends⟩ := exists_ok known
  refine ⟨p, read, q, accepted, loopless, direct, fun fuel enough => ?_⟩
  have whole : (Machine.fresh.run .dividend q.depth p).1.ending ≠ .exhausted := fun out =>
    nomatch ends.symm.trans out
  have same : p.run .dividend fuel = p.run .dividend q.depth :=
    congrArg Prod.fst (Machine.run_of_le enough Machine.fresh p whole)
  exact (congrArg Outcome.ending same).trans ends

end Plc
