import Plc.Proofs.Typing.Onward

/-!
What analysis leaves of a context, whether it accepts the program or not. Of the scopes that there
were only the current one is changed, and that only by what stands at the top level of the program:
the variables of its first globals and, once these are all defined, the signatures of its first
functions. The last of these may be a function that was refused for its body.
-/

namespace Plc

namespace Typing

open Context

/-- The variables that `gs'`, the answer for these globals, has noted. -/
def Notes (vs : List Variable) (gs gs' : List Global) : Prop :=
  gs'.map Global.record = vs.map some ∧ vs.map Variable.name = gs.map Global.name

theorem notes_cons {v : Variable} {vs : List Variable} {g g' : Global} {gs gs' : List Global}
    (first : Notes [v] [g] [g']) (others : Notes vs gs gs') :
    Notes (v :: vs) (g :: gs) (g' :: gs') := by
  obtain ⟨records, names⟩ := first
  simp only [List.map_cons, List.map_nil, List.cons.injEq, and_true] at records names
  simp only [Notes, List.map_cons, records, names, others.1, others.2, and_self]

theorem global_ends (g : Global) (c : Context) :
    (global g).Ends c (fun g' d => ∃ v, Notes [v] [g] [g'] ∧ c.Gains [v] [] d) (c.Gains [] []) := by
  refine ends_bind (declaredType_keeps g.name g.typeName g.value c) fun (value, T) d _ same => ?_
  refine ends_bind (ends_imp (defineVariable_ends (g.variable T) d) (fun _ _ _ => gains_trans same)
    fun _ => gains_trans same) fun _ e _ gains => ?_
  exact ⟨g.variable T, ⟨rfl, congrArg ([·]) (g.variable_name T)⟩, gains⟩

theorem globals_ends (gs : List Global) (c : Context) :
    (gs.mapM global).Ends c (fun gs' d => ∃ vs, Notes vs gs gs' ∧ c.Gains vs [] d)
      fun d => ∃ front gs' e vs, front <+: gs ∧ front.mapM global c = .ok gs' e ∧
        Notes vs front gs' ∧ c.Gains vs [] d := by
  induction gs generalizing c with
  | nil => exact ⟨[], ⟨rfl, rfl⟩, gains_refl c⟩
  | cons g gs ih =>
    rw [List.mapM_cons]
    refine ends_bind (ends_imp (global_ends g c) (fun _ _ _ => id) fun d same => ?_)
      fun g' d first ⟨v, noted, gains⟩ => ?_
    · exact ⟨[], [], c, [], List.nil_prefix, rfl, ⟨rfl, rfl⟩, same⟩
    refine ends_bind (ends_imp (ih d) (fun _ _ _ => id) fun e refused => ?_)
      fun gs' e _ ⟨vs, notes, more⟩ => ?_
    · obtain ⟨front, gs', f, vs, before, accepted, notes, more⟩ := refused
      refine ⟨g :: front, g' :: gs', f, v :: vs, List.cons_prefix_cons.mpr ⟨rfl, before⟩, ?_,
        notes_cons noted notes, gains_trans gains more⟩
      simp only [List.mapM_cons, bind_ok, pure_ok]
      exact ⟨g', d, first, gs', f, accepted, rfl, rfl⟩
    · exact ⟨v :: vs, notes_cons noted notes, gains_trans gains more⟩

end Typing

def Function.declared? (f : Function) : Option Signature := do
  let types ← f.parameterTys?
  let returns ← f.returnTy?
  some ⟨f.name, types, returns⟩

namespace Typing

open Context

theorem returnNamed_keeps {R : Context → Context → Prop} [IsPreorder Context R] (f : Function) :
    Keeps R (returnNamed f) := by
  unfold returnNamed
  cases f.returns with
  | none => exact keeps_pure _
  | some name => exact typeNamed_keeps name

theorem defineParameters_keeps (ps : List Parameter) (types : List Ty) :
    Keeps Onward (defineParameters ps types) := by
  induction ps generalizing types with
  | nil => exact keeps_pure ()
  | cons p ps ih =>
    cases types with
    | nil => exact keeps_pure ()
    | cons ty types => exact keeps_bind (defineVariable_keeps _) fun _ => ih types

theorem ends_returning {α : Type} {act : Typing α} {ty : Ty} {c : Context}
    {good : α → Context → Prop} {bad : Context → Prop} : (returning ty act).Ends c good bad ↔
    act.Ends { c with returns := some ty } (fun a d => good a { d with returns := c.returns })
      fun d => bad { d with returns := c.returns } := by
  unfold Ends returning
  cases act { c with returns := some ty } <;> rfl

theorem keeps_returning {α : Type} {act : Typing α} (ty : Ty) (inner : Keeps (Gains [] []) act) :
    Keeps (Gains [] []) (returning ty act) := by
  intro c
  have back : ∀ d, Gains [] [] { c with returns := some ty } d →
      c.Gains [] [] { d with returns := c.returns } :=
    fun d there => ⟨there.current, rfl, there.next, there.others, there.here⟩
  exact ends_returning.mpr (ends_imp (inner _) (fun _ d _ => back d) back)

/-- A function that is refused for its body has been defined before. -/
theorem function_ends (f : Function) (c : Context) :
    (function f).Ends c (fun _ d => ∃ s, f.declared? = some s ∧ c.Gains [] [s] d)
      fun d => c.Gains [] [] d ∨ ∃ s, f.declared? = some s ∧ c.Gains [] [s] d := by
  rw [function_eq]
  have types := keeps_mapM (R := Gains [] []) f.parameters fun p => typeNamed_keeps p.typeName
  refine ends_bind (ends_imp (types c) (fun _ _ _ => id) fun _ => .inl) fun types d resolved _ => ?_
  obtain ⟨parameters, -, rfl⟩ := mapM_parameters resolved
  refine ends_bind (ends_imp (returnNamed_keeps f c) (fun _ _ _ => id) fun _ => .inl)
    fun returns d known _ => ?_
  obtain ⟨result, rfl⟩ := returnNamed_ok.mp known
  have declared : f.declared? = some ⟨f.name, types, returns⟩ := by
    simp only [Function.declared?, Function.parameterTys?, parameters, result, Option.bind_eq_bind,
      Option.bind_some]
  refine ends_bind (ends_imp (defineFunction_ends ⟨f.name, types, returns⟩ c) (fun _ _ _ => id)
    fun _ => .inl) fun _ d _ gains => ?_
  have body : Keeps Onward (do
      defineParameters f.parameters types
      block f.body) :=
    keeps_bind (defineParameters_keeps f.parameters types) fun _ => block_keeps f.body
  have rest := keeps_returning returns (keeps_inChild body)
  refine ends_bind (ends_imp (rest d) (fun _ _ _ => gains_trans gains) fun e same =>
    .inr ⟨_, declared, gains_trans gains same⟩) fun _ e _ whole => ⟨_, declared, whole⟩

theorem functions_ends (fs : List Function) (c : Context) :
    (fs.mapM function).Ends c
      (fun _ d => ∃ ss, fs.map Function.declared? = ss.map some ∧ c.Gains [] ss d)
      fun d => ∃ front ss, front <+: fs ∧ front.map Function.declared? = ss.map some ∧
        c.Gains [] ss d := by
  induction fs generalizing c with
  | nil => exact ⟨[], rfl, gains_refl c⟩
  | cons f fs ih =>
    rw [List.mapM_cons]
    refine ends_bind (ends_imp (function_ends f c) (fun _ _ _ => id) fun d refused => ?_)
      fun _ d _ ⟨s, declared, gains⟩ => ?_
    · rcases refused with same | ⟨s, declared, gains⟩
      · exact ⟨[], [], List.nil_prefix, rfl, same⟩
      · exact ⟨[f], [s], List.prefix_append [f] fs, by simp [declared], gains⟩
    refine ends_bind (ends_imp (ih d) (fun _ _ _ => id) fun e refused => ?_)
      fun _ e _ ⟨ss, others, more⟩ => ?_
    · obtain ⟨front, ss, before, others, more⟩ := refused
      exact ⟨f :: front, s :: ss, List.cons_prefix_cons.mpr ⟨rfl, before⟩,
        by simp only [List.map_cons, declared, others], gains_trans gains more⟩
    · exact ⟨s :: ss, by simp only [List.map_cons, declared, others], gains_trans gains more⟩

theorem requireMain_keeps {R : Context → Context → Prop} [IsPreorder Context R] :
    Keeps R requireMain := by
  refine keeps_bind keeps_get fun c => ?_
  cases c.scopes.findFunction? c.current "main" 0 with
  | none => exact keeps_throw _
  | some s => exact keeps_ite (keeps_pure ()) (keeps_throw _)

end Typing

namespace Context

def Adds (gs : List Global) (fs : List Function) (c d : Context) : Prop :=
  ∃ gs' e vs ss, gs.mapM Typing.global c = .ok gs' e ∧ Typing.Notes vs gs gs' ∧
    fs.map Function.declared? = ss.map some ∧ c.Gains vs ss d

theorem gains_of_adds {gs : List Global} {fs : List Function} {c d : Context}
    (adds : c.Adds gs fs d) : ∃ vs ss, c.Gains vs ss d := by
  obtain ⟨_, _, vs, ss, -, -, -, gains⟩ := adds
  exact ⟨vs, ss, gains⟩

def analysed (c : Context) (p : Program) : Context :=
  match Typing.program p c with
  | .ok _ d | .error _ d => d

structure Idle (c : Context) : Prop where
  inside : c.current < c.scopes.next
  returns : c.returns = none

theorem idle_inside (t : Scopes Variable Signature) (parent : Nat) : (inside t parent).Idle :=
  ⟨by simp [inside], rfl⟩

theorem idle_of_gains {vs : List Variable} {ss : List Signature} {c d : Context} (idle : c.Idle)
    (gains : c.Gains vs ss d) : d.Idle where
  inside := by
    rw [gains.current]
    exact Nat.lt_of_lt_of_le idle.inside gains.next
  returns := by rw [gains.returns, idle.returns]

end Context

theorem Typing.program_ends (p : Program) (c : Context) :
    (program p).Ends c (fun _ => c.Adds p.globals p.functions) fun d =>
      ∃ gs fs, gs <+: p.globals ∧ fs <+: p.functions ∧ (fs ≠ [] → gs = p.globals) ∧
        c.Adds gs fs d := by
  refine ends_bind (ends_imp (globals_ends p.globals c) (fun _ _ _ => id) fun d refused => ?_)
    fun gs' d accepted ⟨vs, notes, first⟩ => ?_
  · obtain ⟨gs, gs', e, vs, before, accepted, notes, gains⟩ := refused
    exact ⟨gs, [], before, List.nil_prefix, nofun, gs', e, vs, [], accepted, notes, rfl, gains⟩
  refine ends_bind (ends_imp (functions_ends p.functions d) (fun _ _ _ => id) fun e refused => ?_)
    fun _ e _ ⟨ss, declared, more⟩ => ?_
  · obtain ⟨fs, ss, before, declared, more⟩ := refused
    have gains := Context.gains_trans first more
    rw [List.append_nil, List.nil_append] at gains
    exact ⟨p.globals, fs, List.prefix_rfl, before, fun _ => rfl, gs', d, vs, ss, accepted, notes,
      declared, gains⟩
  have whole : ∀ f, e.Gains [] [] f → c.Adds p.globals p.functions f := by
    intro f last
    have gains := Context.gains_trans first (Context.gains_trans more last)
    rw [List.append_nil, List.append_nil, List.nil_append, List.append_nil] at gains
    exact ⟨gs', d, vs, ss, accepted, notes, declared, gains⟩
  refine ends_bind (ends_imp (requireMain_keeps (R := Context.Gains [] []) e)
    (fun _ f _ => whole f) fun f last => ?_) fun _ _ _ => id
  exact ⟨_, _, List.prefix_rfl, List.prefix_rfl, fun _ => rfl, whole f last⟩

/-- What is gained is the front of the program, and all of it where the program is accepted. -/
theorem Context.adds_of_analysed (p : Program) (c : Context) :
    ∃ gs fs, gs <+: p.globals ∧ fs <+: p.functions ∧ (fs ≠ [] → gs = p.globals) ∧
      (∀ q d, Typing.program p c = .ok q d → gs = p.globals ∧ fs = p.functions) ∧
      c.Adds gs fs (c.analysed p) := by
  have ends := Typing.program_ends p c
  unfold Typing.Ends at ends
  unfold analysed
  cases ended : Typing.program p c with
  | ok q d =>
    rw [ended] at ends
    exact ⟨_, _, List.prefix_rfl, List.prefix_rfl, fun _ => rfl, fun _ _ _ => ⟨rfl, rfl⟩, ends⟩
  | error r d =>
    rw [ended] at ends
    obtain ⟨gs, fs, globals, functions, order, adds⟩ := ends
    exact ⟨gs, fs, globals, functions, order, nofun, adds⟩

/-- Analysis of a program, however it ends, leaves the context ready for another one. It is in the
same scope and in no function, the other scopes are as they were, and that one has lost nothing.
What it has gained are the first globals of the program and after them its first functions. -/
theorem program_reusable (p : Program) {c : Context} (idle : c.Idle) :
    (c.analysed p).Idle ∧ (c.analysed p).current = c.current ∧
      (∀ i < c.scopes.next, i ≠ c.current →
        (c.analysed p).scopes.scope? i = c.scopes.scope? i) ∧
      (∀ name v, c.scopes.ownVariable? c.current name = some v →
        (c.analysed p).scopes.ownVariable? c.current name = some v) ∧
      (∀ name arity f, c.scopes.ownFunction? c.current name arity = some f →
        (c.analysed p).scopes.ownFunction? c.current name arity = some f) ∧
      ∃ gs fs, gs <+: p.globals ∧ fs <+: p.functions ∧ (fs ≠ [] → gs = p.globals) ∧
        (∀ q d, Typing.program p c = .ok q d → gs = p.globals ∧ fs = p.functions) ∧
        c.Adds gs fs (c.analysed p) := by
  obtain ⟨gs, fs, globals, functions, order, whole, adds⟩ := Context.adds_of_analysed p c
  obtain ⟨vs, ss, gains⟩ := Context.gains_of_adds adds
  exact ⟨Context.idle_of_gains idle gains, gains.current, gains.others,
    fun _ _ => Context.variable_of_gains gains, fun _ _ _ => Context.function_of_gains gains,
    gs, fs, globals, functions, order, whole, adds⟩

/-- A program that is refused two blocks deep in its second function. -/
def refusedInside : Program where
  globals := [⟨"x", none, true, false, some (.literal (.integer 1) none), none⟩]
  functions := [
    ⟨"f", [⟨"a", "Integer"⟩], some "Integer", [.return (.access "a" none none)], none⟩,
    ⟨"g", [⟨"b", "Integer"⟩], none, [.conditional (.literal (.boolean true) none)
      [.declaration "c" none (some (.access "b" none none)) none,
        .loop (.literal (.boolean true) none)
          [.assignment (.access "c" none none) (.literal .nil none)]] []], none⟩,
    ⟨"main", [], some "Integer", [.return (.access "x" none none)], none⟩]

/-- The part of a program that may follow `refusedInside` in the same scope. -/
def remedy : Program where
  globals := []
  functions := [⟨"main", [], some "Integer",
    [.return (.call "f" [.access "x" none none] none none)], none⟩]

def Context.known (c : Context) : Option (List String × List (String × Nat)) :=
  (c.scopes.scope? c.current).map fun s => (s.bindings.map Prod.fst, s.functions.map Prod.fst)

/-- Of the program `x`, `f` and `g` stay, nothing of what is in `g`, and analysis goes on. -/
theorem program_reusable_refusedInside :
    Context.fresh.Idle ∧ refusedInside.check.toOption.isNone ∧
      (Context.fresh.analysed refusedInside).Idle ∧
      (Context.fresh.analysed refusedInside).known =
        some (["x"], [("g", 1), ("f", 1), ("print", 1)]) ∧
      ((Context.fresh.analysed refusedInside).analysed remedy).Idle ∧
      ((Context.fresh.analysed refusedInside).analysed remedy).known =
        some (["x"], [("main", 0), ("g", 1), ("f", 1), ("print", 1)]) := by
  have idle := Context.idle_inside .single 0
  have again := (program_reusable refusedInside idle).1
  exact ⟨idle, by decide +kernel, again, by decide +kernel, (program_reusable remedy again).1,
    by decide +kernel⟩

end Plc
