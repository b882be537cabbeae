import Plc.Outcome
import Plc.Proofs.Calls.Parents
import Plc.Proofs.Calls.Runs
import Plc.Proofs.Typing.Sound

/-!
What the calls of a program run. Analysis looks a call up when the functions up to there are known,
and the call is looked up again when it runs, with all functions registered. The two agree but for
one case: a function from around the program, hidden by one that the program defines after the call.
-/

namespace Plc

open Watched

def Program.DefinesLater (q : Program) (e : Expr) (d : Function) : Prop :=
  ∃ before g after, q.functions = before ++ g :: after ∧ e ∈ g.expressions ∧ d ∈ after

/-- What a call of the program runs: a function that declares what analysis has noted in the call,
or else one that hides the function that analysis knew, from scope `i` around the program, and that
the program defines too late for analysis to know it at the call. The program's own scope is
`home`. -/
def Program.CallRuns (q : Program) (t : Scopes Variable Signature) (i home : Nat) (e : Expr)
    (f : Callable) : Prop :=
  e ∈ q.expressions ∧ ∃ name args s slot, e = .call name args (some s) slot ∧
    (f.Declares s ∨ ∃ d, f = .function d home ∧ d.Answers name args.length ∧ q.DefinesLater e d ∧
      t.findFunction? i name args.length = some s)

def Machine.Holds (m : Machine) (e : Expr) : Prop :=
  ∃ k name arity d c, m.scopes.ownFunction? k name arity = some (.function d c) ∧
    e ∈ d.expressions

theorem Program.mem_of_function {q : Program} {g : Function} {x : Expr} (member : g ∈ q.functions)
    (inside : x ∈ g.expressions) : x ∈ q.expressions := by
  obtain ⟨s, part, e, own, inside⟩ := Function.mem_expressions.mp inside
  exact Program.mem_of_body member part own inside

section

variable {t : Scopes Variable Signature} {i : Nat} {m : Machine} {j : Nat} {q : Program}
  {Θ Δ : Env} {name : String} {args : List Expr} {signature : Option Signature} {slot : Option Ty}
  {f : Callable}

theorem declares_of_found (parents : Parents t i m j) {arity : Nat} {s : Signature}
    (has : (Context.inside t i).env.Has name arity s)
    (found : (m.inside j).scopes.findFunction? m.scopes.next name arity = some f) :
    f.Declares s := by
  have agree := agree_inside parents name arity
  rw [found, show _ = some s from has] at agree
  cases agree with
  | some declares => exact declares

/-- While globals are defined, the functions of the program are known to nobody. -/
theorem callRuns_of_global (parents : Parents t i m j)
    (globals : GlobalsOk True (Context.inside t i).env q.globals Θ) {g : Global} {v : Expr}
    (member : g ∈ q.globals) (value : g.value = some v)
    (inside : .call name args signature slot ∈ v.parts)
    (found : (m.inside j).scopes.findFunction? m.scopes.next name args.length = some f) :
    q.CallRuns t i m.scopes.next (.call name args signature slot) f := by
  obtain ⟨s, rfl, has⟩ :=
    noted_of_globals globals g member v value _ inside name args signature slot rfl
  exact ⟨Program.mem_of_global member value inside, name, args, s, slot, rfl,
    .inl (declares_of_found parents has found)⟩

theorem callRuns_of_function (parents : Parents t i m j)
    (globals : GlobalsOk True (Context.inside t i).env q.globals Θ)
    (functions : FunctionsOk True Θ q.functions Δ) {before after : List Function} {g : Function}
    (split : q.functions = before ++ g :: after)
    (inside : .call name args signature slot ∈ g.expressions)
    (found : ((m.inside j).scopes.registerAll m.scopes.next q.functions).findFunction?
      m.scopes.next name args.length = some f) :
    q.CallRuns t i m.scopes.next (.call name args signature slot) f := by
  obtain ⟨s, rfl, known⟩ := noted_of_functions functions split inside name args signature slot rfl
  have up : ∀ c ∈ before ++ [g], c ∈ q.functions := by
    intro c member
    rw [split, ← List.singleton_append, ← List.append_assoc]
    exact List.mem_append_left after member
  refine ⟨Program.mem_of_function (up g (by simp)) inside, name, args, s, slot, rfl, ?_⟩
  rcases Scopes.findFunction?_registerAll inside_next found with
    ⟨d, there, answers, rfl⟩ | ⟨none, earlier⟩
  · rcases known with ⟨c, above, answersC, declares⟩ | ⟨none, has⟩
    · have same : d = c := same_of_answers functions there (up c above) answers answersC
      exact .inl (same ▸ declares)
    · have later : d ∈ after := by
        rw [split, ← List.singleton_append, ← List.append_assoc] at there
        exact (List.mem_append.mp there).resolve_left fun above => none d above answers
      have free := free_of_functions functions d there
      rw [answers.1, answers.2, own_of_globals globals] at free
      rw [has_of_globals globals] at has
      exact .inr ⟨d, rfl, answers, ⟨before, g, after, split, inside, later⟩,
        found_around parents has free⟩
  · rcases known with ⟨c, above, answers, _⟩ | ⟨_, has⟩
    · exact absurd answers (none c (up c above))
    · rw [has_of_globals globals] at has
      exact .inl (declares_of_found parents has earlier)

theorem ownFunction?_inside {k : Nat} {arity : Nat} {d : Function} {c : Nat}
    (found : (m.inside j).scopes.ownFunction? k name arity = some (.function d c)) :
    m.scopes.ownFunction? k name arity = some (.function d c) := by
  simp only [Machine.inside, Scopes.ownFunction?_bindFunction, Scopes.ownFunction?_addChild]
    at found
  split at found
  · cases found
  · exact found

def Parents.stage (parents : Parents t i m j) (fs : List Function) (code : Expr → Prop)
    (bodies : ∀ d ∈ fs, ∀ x ∈ d.expressions, code x) : Stage where
  table := (m.inside j).scopes.registerAll m.scopes.next fs
  founded := Scopes.founded_registerAll (founded_inside parents) _ _
  code a x := if a = m.scopes.next then code x else m.Holds x
  bodies := by
    intro k name arity d c found
    rw [Scopes.next_registerAll, next_inside]
    rcases Scopes.ownFunction?_registerAll found with ⟨e, member, is⟩ | before
    · cases is
      refine ⟨Nat.lt_succ_self _, fun s part e own x inside => ?_⟩
      rw [if_pos rfl]
      exact bodies d member x (Function.mem_expressions.mpr ⟨s, part, e, own, inside⟩)
    · have before := ownFunction?_inside before
      have older : c < m.scopes.next := parents.closed k name arity d c before
      refine ⟨Nat.lt_succ_of_lt older, fun s part e own x inside => ?_⟩
      rw [if_neg (Nat.ne_of_lt older)]
      exact ⟨k, name, arity, d, c, before, Function.mem_expressions.mpr ⟨s, part, e, own, inside⟩⟩

/-- A call is made inside the program's scope, and stands in its code then, or elsewhere. -/
theorem stands_of_resolves (parents : Parents t i m j) {fs : List Function} {code : Expr → Prop}
    {bodies : ∀ d ∈ fs, ∀ x ∈ d.expressions, code x} {x : Moment}
    (resolves : (parents.stage fs code bodies).Resolves x) {e : Expr}
    (event : x.event = .called e f) :
    (m.scopes.next ∈ x.machine.scopes.path x.machine.current ∧ code e ∧
      ∃ name args signature slot, e = .call name args signature slot ∧
        ((m.inside j).scopes.registerAll m.scopes.next fs).findFunction? m.scopes.next name
          args.length = some f) ∨
      m.scopes.next ∉ x.machine.scopes.path x.machine.current ∧ m.Holds e := by
  obtain ⟨a, placed, stands, is⟩ := resolves e f event
  obtain ⟨inner, path, new⟩ := placed.lies
  have size : (parents.stage fs code bodies).table.next = m.scopes.next + 1 := by
    rw [Parents.stage, Scopes.next_registerAll, next_inside]
  rw [path, List.mem_append]
  by_cases here : a = m.scopes.next
  · subst here
    refine .inl ⟨.inr List.mem_cons_self, ?_, is⟩
    simpa only [Parents.stage, if_true] using stands
  · refine .inr ⟨?_, ?_⟩
    · have inside := placed.inside
      rintro (deep | around)
      · have later := new _ deep
        omega
      · have older := Scopes.path_le (parents.stage fs code bodies).founded inside around
        omega
    · simpa only [Parents.stage, if_neg here] using stands

def Adds (good : Moment → Prop) (h k : History) : Prop := ∀ x ∈ k.moments, x ∈ h.moments ∨ good x

theorem adds_trans {good : Moment → Prop} {h k l : History} (first : Adds good h k)
    (second : Adds good k l) : Adds good h l := by
  intro x member
  rcases second x member with between | fine
  · exact first x between
  · exact .inr fine

theorem adds_reach {good : Moment → Prop} {h : History} {n : Machine} (fine : good ⟨.reached, n⟩) :
    Adds good h (h.reach n) := by
  intro x member
  rcases List.mem_cons.mp member with rfl | before
  · exact .inr fine
  · exact .inl before

theorem runs_register {good : Moment → Prop} {table : Scopes Nat Callable} {home : Nat}
    {h : History} (fs : List Function) (plain : ∀ n, good ⟨.reached, n⟩)
    (quiet : table.Quiet h.machine.scopes) (inside : home < table.next)
    (here : h.machine.current = home) :
    Runs (Adds good) (fun _ _ => True) h (fs.forM fun d => step (Eval.defineFunction d)) fun _ k =>
      (table.registerAll home fs).Quiet k.machine.scopes ∧ k.machine.current = home := by
  induction fs generalizing table h with
  | nil => exact runs_pure (fun _ => .inl) ⟨quiet, here⟩
  | cons d fs ih =>
    have first : Runs (Adds good) (fun _ _ => True) h (step (Eval.defineFunction d)) fun _ k =>
        (table.bindFunction home d.name d.arity (.function d home)).Quiet k.machine.scopes ∧
          k.machine.current = home := by
      refine runs_step ?_
      unfold Eval.defineFunction
      cases h.machine.scopes.functionClash? h.machine.current d.name d.arity with
      | some r => exact ⟨adds_reach (plain _), trivial⟩
      | none =>
        refine ⟨adds_reach (plain _), ?_, here⟩
        rw [here]
        exact Scopes.quiet_bindFunction quiet inside d.name d.arity (.function d home)
    apply runs_bind adds_trans first
    intro _ k _ registered
    exact ih registered.1 (by rwa [Scopes.next_bindFunction]) registered.2

/-- A call at this moment is one of the program, run in its scope, or it stands elsewhere. -/
def Program.Settled (q : Program) (t : Scopes Variable Signature) (i : Nat) (m : Machine)
    (x : Moment) : Prop :=
  ∀ e f, x.event = .called e f →
    (m.scopes.next ∈ x.machine.scopes.path x.machine.current ∧
      q.CallRuns t i m.scopes.next e f) ∨
      m.scopes.next ∉ x.machine.scopes.path x.machine.current ∧ m.Holds e

theorem adds_of_goes {S : Stage} {good : Moment → Prop} {h k : History}
    (fine : ∀ x, S.Resolves x → good x) (goes : S.Goes h k) : Adds good h k :=
  fun x member => (goes.moments x member).imp_right (fine x)

def Parents.opening (parents : Parents t i m j) (q : Program) : Stage :=
  parents.stage [] (fun x => ∃ g ∈ q.globals, ∃ v, g.value = some v ∧ x ∈ v.parts) nofun

def Parents.running (parents : Parents t i m j) (q : Program) : Stage :=
  parents.stage q.functions
    (fun x => ∃ before g after, q.functions = before ++ g :: after ∧ x ∈ g.expressions)
    fun d member x inside => by
      obtain ⟨before, after, split⟩ := List.append_of_mem member
      exact ⟨before, d, after, split, inside⟩

theorem settled_opening (parents : Parents t i m j)
    (globals : GlobalsOk True (Context.inside t i).env q.globals Θ) (x : Moment)
    (resolves : (parents.opening q).Resolves x) : q.Settled t i m x := by
  intro e f event
  refine (stands_of_resolves parents resolves event).imp_left ?_
  rintro ⟨here, ⟨g, member, v, value, inside⟩, name, args, signature, slot, rfl, found⟩
  exact ⟨here, callRuns_of_global parents globals member value inside found⟩

theorem settled_running (parents : Parents t i m j)
    (globals : GlobalsOk True (Context.inside t i).env q.globals Θ)
    (functions : FunctionsOk True Θ q.functions Δ) (x : Moment)
    (resolves : (parents.running q).Resolves x) : q.Settled t i m x := by
  intro e f event
  refine (stands_of_resolves parents resolves event).imp_left ?_
  rintro ⟨here, ⟨before, g, after, split, inside⟩, name, args, signature, slot, rfl, found⟩
  exact ⟨here, callRuns_of_function parents globals functions split inside found⟩

theorem runs_globals (parents : Parents t i m j)
    (globals : GlobalsOk True (Context.inside t i).env q.globals Θ) (rule : DivisionScale)
    (fuel : Nat) :
    Runs (Adds (q.Settled t i m)) (fun _ _ => True) (.start { m.inside j with output := #[] })
      (q.globals.forM (defineGlobal rule fuel)) fun _ k =>
        (m.inside j).scopes.Quiet k.machine.scopes ∧ k.machine.current = m.scopes.next := by
  have placed : (parents.opening q).Placed m.scopes.next { m.inside j with output := #[] } :=
    Stage.placed_at (Scopes.quiet_refl _) inside_next rfl
  have covers : ∀ g ∈ q.globals, ∀ e, g.value = some e →
      (parents.opening q).Covers m.scopes.next e := by
    intro g member e value x inside
    exact (if_pos rfl).mpr ⟨g, member, e, value, inside⟩
  have finds : (parents.opening q).Finds (.start { m.inside j with output := #[] })
      (q.globals.forM (defineGlobal rule fuel)) fun _ => True :=
    Stage.finds_globals placed covers
  refine runs_mono (runs_imp finds fun _ k goes _ => ?_)
    (fun k => adds_of_goes (settled_opening parents globals)) fun _ _ => id
  exact ⟨goes.quiet, goes.current⟩

theorem runs_settled (parents : Parents t i m j)
    (ok : ProgramOk True (Context.inside t i).env q Δ) (rule : DivisionScale) (fuel : Nat) :
    Runs (Adds (q.Settled t i m)) (fun _ _ => True) (.start { m.inside j with output := #[] })
      (program rule fuel q) fun _ _ => True := by
  obtain ⟨⟨Θ, globals, functions⟩, -⟩ := ok
  apply runs_bind adds_trans (runs_globals parents globals rule fuel)
  intro _ k _ ⟨quiet, here⟩
  apply runs_bind adds_trans (runs_register q.functions (fun _ => nofun) quiet inside_next here)
  intro _ l _ ⟨quiet, here⟩
  refine runs_get (runs_get ?_)
  have inside : m.scopes.next < (parents.running q).table.next := by
    rw [Parents.running, Parents.stage, Scopes.next_registerAll]
    exact inside_next
  have placed : (parents.running q).Placed m.scopes.next l.machine :=
    Stage.placed_at quiet inside here
  exact runs_mono (Stage.finds_main placed)
    (fun n => adds_of_goes (settled_running parents globals functions)) fun _ _ => id

/-- In every run of an accepted program, each call in its scope runs a function that declares what
analysis has noted in the call, unless the program hides that function too late. The other calls
stand in functions from around the program. -/
theorem calls_resolved (parents : Parents t i m j) {p : Program}
    (accepted : (Typing.program p).run' (.inside t i) = some q) (rule : DivisionScale) (fuel : Nat) :
    ∀ x ∈ ((m.inside j).history rule fuel q).moments, ∀ e f, x.event = .called e f →
      ((m.inside j).home ∈ x.machine.scopes.path x.machine.current ∧
        q.CallRuns t i (m.inside j).home e f) ∨
        (m.inside j).home ∉ x.machine.scopes.path x.machine.current ∧ m.Holds e := by
  unfold EStateM.run' EStateM.run at accepted
  cases typed : Typing.program p (.inside t i) with
  | error e d => simp [typed] at accepted
  | ok r d =>
    simp only [typed, Option.some.injEq] at accepted
    subst accepted
    obtain ⟨ok, -⟩ := Typing.program_sound (formed_of_parents parents) typed
    have ran := runs_program (runs_settled parents ok rule fuel)
    intro x member
    exact (ran.1 x member).resolve_left nofun

end

def Event.call? : Event → Option (Expr × Callable)
  | .called e f => some (e, f)
  | _ => none

theorem called_of_call? {event : Event} {e : Expr} {f : Callable}
    (call : event.call? = some (e, f)) : event = .called e f := by
  cases event with
  | called d g =>
    cases call
    rfl
  | _ => cases call

def Expr.signature? : Expr → Option Signature
  | .call _ _ signature _ => signature
  | _ => none

def one : Function := ⟨"f", [], some "Integer", [.return (.literal (.integer 1) none)], none⟩

def oneSignature : Signature := ⟨"f", [], .integer⟩

def oneScopes : Scopes Variable Signature :=
  Scopes.single.bindFunction 0 "f" oneSignature.arity oneSignature

def oneMachine : Machine :=
  { Machine.empty with
    scopes := Machine.empty.scopes.bindFunction 0 "f" oneSignature.arity (.function one 0) }

theorem parents_one : Parents oneScopes 0 oneMachine 0 := by
  refine parents_bindFunction parents_empty "f" (by decide) fun d c is => ?_
  cases is
  decide

def inheriting : String :=
  "FUN g(n: Integer): Integer DO RETURN n + f(); END FUN main(): Integer DO RETURN g(1); END"

theorem calls_resolved_inheriting : ∃ p, Source.parse inheriting = .ok p ∧
    Parents oneScopes 0 oneMachine 0 ∧
    ∃ q, (Typing.program p).run' (.inside oneScopes 0) = some q ∧
      ∃ x ∈ ((oneMachine.inside 0).history .dividend 20 q).moments, ∃ e f,
        x.event = .called e f ∧
        ((oneMachine.inside 0).home ∈ x.machine.scopes.path x.machine.current ∧
          q.CallRuns oneScopes 0 (oneMachine.inside 0).home e f ∨
        (oneMachine.inside 0).home ∉ x.machine.scopes.path x.machine.current ∧
          oneMachine.Holds e) ∧
        ∃ s ∈ e.signature?, s = oneSignature ∧ f.Declares s := by
  have known : ∃ p ∈ (Source.parse inheriting).toOption,
      ∃ q ∈ (Typing.program p).run' (.inside oneScopes 0),
        ∃ x ∈ ((oneMachine.inside 0).history .dividend 20 q).moments,
          ∃ c ∈ x.event.call?, ∃ s ∈ c.1.signature?, s = oneSignature ∧ c.2.Declares s := by
    decide +kernel
  obtain ⟨p, read, q, accepted, x, member, ⟨e, f⟩, call, noted⟩ := exists_ok known
  have event := called_of_call? call
  exact ⟨p, read, parents_one, q, accepted, x, member, e, f, event,
    calls_resolved parents_one accepted .dividend 20 x member e f event, noted⟩

/-- The program has a function `f` of its own, but only after a call. -/
def late : String :=
  "FUN main(): Integer DO RETURN f(); END FUN f(): String DO RETURN \"s\"; END"

/-- A call that analysis has resolved to the integer function runs the one that gives a string. -/
theorem late_function : Parents oneScopes 0 oneMachine 0 ∧
    ∃ p, Source.parse late = .ok p ∧
      ∃ q ∈ (Typing.program p).run' (.inside oneScopes 0),
        (∃ x ∈ ((oneMachine.inside 0).history .dividend 20 q).moments,
          ∃ c ∈ x.event.call?,
            (oneMachine.inside 0).home ∈ x.machine.scopes.path x.machine.current ∧
            c.1.signature? = some oneSignature ∧
            ¬ c.2.Declares oneSignature) ∧
        ((oneMachine.inside 0).run .dividend 20 q).1.ending = .error (.mainResult .string) :=
  ⟨parents_one, exists_ok (by decide +kernel)⟩

end Plc
