import Plc.Proofs.StoreLaw
import Plc.Session

/-!
Timelines of sessions: all moments of all runs of a session, for any steps in any order. Programs
may come from a source text or be made by hand, and may be typed before they run or not. A store law
that also bears variables being set from outside holds at every moment of every timeline.
-/

namespace Plc

namespace Session

inductive Step where
  | fresh
  | child
  | run (source : String) (typed : Bool) (fuel : Nat)
  /-- Any tree may be typed and any may be run, whether or not the first has been done. -/
  | analyse (p : Program)
  | interpret (p : Program) (fuel : Nat)
  | set (name : String) (value : Literal)
  | exportVariable (name newName : String)
  | exportFunction (name : String) (arity : Nat) (newName : String) (newArity : Nat)

def analyse (s : Session) (p : Program) : Session :=
  match Typing.program p s.static with
  | .ok _ static | .error _ static => { s with static }

def after (s : Session) : Step → Session
  | .fresh => s.fresh
  | .child => s.child
  | .run source typed fuel => (s.run source typed fuel).2
  | .analyse p => s.analyse p
  | .interpret p fuel => { s with machine := (s.machine.run s.rule fuel p).2 }
  | .set name value => (s.set? name value).getD s
  | .exportVariable name newName => (s.exportVariable name newName).2
  | .exportFunction name arity newName newArity =>
    (s.exportFunction name arity newName newArity).2

def during (s : Session) : Step → List Moment
  | .run source typed fuel =>
    match s.load source typed with
    | (.ok p, s) => (s.machine.history s.rule fuel p).moments
    | (.error _, _) => []
  | .interpret p fuel => (s.machine.history s.rule fuel p).moments
  | _ => []

/-- All moments of a session that makes these steps, the latest first. -/
def timeline (s : Session) : List Step → List Moment
  | [] => [⟨.reached, s.machine⟩]
  | step :: steps => (s.after step).timeline steps ++ s.during step ++ [⟨.reached, s.machine⟩]

end Session

namespace StoreLaw

open Session

/-- The law holds at all these moments, and each of them grows out of all before it. -/
structure Ordered {rule : DivisionScale} (L : StoreLaw rule) (first last : Machine)
    (moments : List Moment) : Prop where
  holds : ∀ x ∈ moments, L.holds x.machine
  sees : ∀ x ∈ moments, L.Sees x
  since : ∀ x ∈ moments, L.grows first x.machine
  till : ∀ x ∈ moments, L.grows x.machine last
  pairwise : moments.Pairwise fun later earlier => L.grows earlier.machine later.machine
  ends : L.holds last
  grown : L.grows first last

variable {rule : DivisionScale} {L : StoreLaw rule}

theorem ordered_none {m n : Machine} (holds : L.holds n) (grows : L.grows m n) :
    L.Ordered m n [] := ⟨by simp, by simp, by simp, by simp, .nil, holds, grows⟩

theorem ordered_self {m : Machine} (holds : L.holds m) : L.Ordered m m [⟨.reached, m⟩] :=
  ⟨by simpa, by simp [Sees], by simp [L.refl], by simp [L.refl], by simp, holds, L.refl m⟩

theorem ordered_append {m n o : Machine} {early late : List Moment} (first : L.Ordered m n early)
    (second : L.Ordered n o late) : L.Ordered m o (late ++ early) := by
  refine ⟨?_, ?_, ?_, ?_, ?_, second.ends, L.trans first.grown second.grown⟩
  · intro x hx
    exact (List.mem_append.mp hx).elim (second.holds x) (first.holds x)
  · intro x hx
    exact (List.mem_append.mp hx).elim (second.sees x) (first.sees x)
  · intro x hx
    rcases List.mem_append.mp hx with hx | hx
    · exact L.trans first.grown (second.since x hx)
    · exact first.since x hx
  · intro x hx
    rcases List.mem_append.mp hx with hx | hx
    · exact second.till x hx
    · exact L.trans (first.till x hx) second.grown
  · refine List.pairwise_append.mpr ⟨second.pairwise, first.pairwise, fun x hx y hy => ?_⟩
    exact L.trans (first.till y hy) (second.since x hx)

theorem ordered_run (m : Machine) (fuel : Nat) (p : Program) (holds : L.holds m) :
    L.Ordered m (m.run rule fuel p).2 (m.history rule fuel p).moments := by
  have begun := L.aside m { m with output := #[] } rfl rfl holds
  have kept := (Watched.runs_program (keeps_program fuel p begun.1)).1
  obtain ⟨last, grows, new, moments, each, pairwise⟩ := kept
  rw [history_machine] at last grows each
  have all : (m.history rule fuel p).moments = new := by rw [moments]; exact List.append_nil new
  rw [all]
  exact ⟨fun x hx => (each x hx).1, fun x hx => (each x hx).2.1,
    fun x hx => L.trans begun.2 (each x hx).2.2.1, fun x hx => (each x hx).2.2.2, pairwise, last,
    L.trans begun.2 grows⟩

def BearsSetting (L : StoreLaw rule) : Prop :=
  ∀ (m : Machine) (i : Nat) (l : Literal), L.holds m →
    L.holds (m.setting i (.ofLiteral l)) ∧ L.grows m (m.setting i (.ofLiteral l))

theorem load_machine (s : Session) (source : String) (typed : Bool) :
    (s.load source typed).2.machine = s.machine ∧ (s.load source typed).2.rule = s.rule := by
  unfold Session.load
  cases Source.parse source with
  | error e => exact ⟨rfl, rfl⟩
  | ok p =>
    cases typed with
    | false => exact ⟨rfl, rfl⟩
    | true =>
      dsimp only
      rw [if_pos rfl]
      cases Typing.program p s.static <;> exact ⟨rfl, rfl⟩

/-- What is left of a run: nothing but definitions if there was no program to run. -/
theorem after_run (s : Session) (source : String) (typed : Bool) (fuel : Nat) :
    (s.after (.run source typed fuel)).machine = s.machine ∧
        s.during (.run source typed fuel) = [] ∨
      ∃ p, (s.after (.run source typed fuel)).machine = (s.machine.run s.rule fuel p).2 ∧
        s.during (.run source typed fuel) = (s.machine.history s.rule fuel p).moments := by
  have loaded := load_machine s source typed
  simp only [Session.after, Session.run, Session.during]
  cases found : s.load source typed with
  | mk answer t =>
    rw [found] at loaded
    have machine : t.machine = s.machine := loaded.1
    have same : t.rule = s.rule := loaded.2
    cases answer with
    | error e => exact .inl ⟨machine, rfl⟩
    | ok p => exact .inr ⟨p, by simp only [machine, same], by simp only [machine, same]⟩

theorem after_rule (s : Session) (step : Step) : (s.after step).rule = s.rule := by
  cases step with
  | run source typed fuel =>
    have same := (load_machine s source typed).2
    simp only [Session.after, Session.run]
    cases found : s.load source typed with
    | mk answer t =>
      rw [found] at same
      cases answer <;> exact same
  | analyse p =>
    simp only [Session.after, Session.analyse]
    cases Typing.program p s.static <;> rfl
  | set name value =>
    simp only [Session.after, Session.set?]
    cases s.cell? name <;> rfl
  | _ => rfl

theorem ordered_step (bears : L.BearsSetting) (s : Session) (same : s.rule = rule) (step : Step)
    (holds : L.holds s.machine) :
    L.Ordered s.machine (s.after step).machine (s.during step) := by
  subst same
  have aside : ∀ n : Machine, n.cells = s.machine.cells → n.heap = s.machine.heap →
      L.Ordered s.machine n [] := fun n cells heap =>
    have a := L.aside s.machine n cells heap holds
    ordered_none a.1 a.2
  cases step with
  | fresh | child | exportVariable => exact aside _ rfl rfl
  | exportFunction name arity newName newArity =>
    simp only [Session.after, Session.exportFunction]
    cases s.callable? name arity <;> exact aside _ rfl rfl
  | analyse p =>
    simp only [Session.after, Session.analyse]
    cases Typing.program p s.static <;> exact aside _ rfl rfl
  | set name value =>
    simp only [Session.after, Session.set?]
    cases s.cell? name with
    | none => exact aside _ rfl rfl
    | some i =>
      have set := bears s.machine i value holds
      exact ordered_none set.1 set.2
  | interpret p fuel => exact ordered_run s.machine fuel p holds
  | run source typed fuel =>
    rcases after_run s source typed fuel with ⟨machine, none⟩ | ⟨p, machine, moments⟩
    · rw [none, machine]
      exact aside _ rfl rfl
    · rw [moments, machine]
      exact ordered_run s.machine fuel p holds

theorem ordered_timeline (bears : L.BearsSetting) (s : Session) (same : s.rule = rule)
    (steps : List Step) (holds : L.holds s.machine) :
    ∃ last, L.Ordered s.machine last (s.timeline steps) := by
  induction steps generalizing s with
  | nil => exact ⟨s.machine, ordered_self holds⟩
  | cons step steps ih =>
    have first := ordered_step bears s same step holds
    obtain ⟨last, rest⟩ := ih (s.after step) ((after_rule s step).trans same) first.ends
    exact ⟨last, ordered_append (ordered_self holds) (ordered_append first rest)⟩

end StoreLaw

end Plc
