import Plc.Proofs.Calls
import Plc.Proofs.Calls.Noted
import Plc.Proofs.Typing.Environment

/-!
Programs inside other scopes. One scope is there for analysis and one for running, and they agree on
what functions there are. The program gets a scope of its own in each; there they still agree, until
the functions of the program are registered.
-/

namespace Plc

def Callable.Declares : Callable → Signature → Prop
  | .print, s => s.parameters = [.any] ∧ s.returns = .nil
  | .function d _, s => d.Declares s

instance : (f : Callable) → (s : Signature) → Decidable (f.Declares s)
  | .print, _ => inferInstanceAs (Decidable (_ ∧ _))
  | .function d _, s => inferInstanceAs (Decidable (d.Declares s))

/-- Scope `i` for analysis and scope `j` for running know the same functions by name and number of
arguments, and each function declares what analysis knows of it. -/
structure Parents (t : Scopes Variable Signature) (i : Nat) (m : Machine) (j : Nat) : Prop where
  inside : i < t.next
  founded : t.Founded
  keyed : ∀ k name arity s, t.ownFunction? k name arity = some s → s.arity = arity
  there : j < m.scopes.next
  grounded : m.scopes.Founded
  closed : ∀ k name arity d c, m.scopes.ownFunction? k name arity = some (.function d c) →
    c < m.scopes.next
  agree : ∀ name arity, Option.Rel Callable.Declares (m.scopes.findFunction? j name arity)
    (t.findFunction? i name arity)

theorem parents_empty : Parents Scopes.single 0 Machine.empty 0 := by
  have nothing : ∀ {V F : Type} (name : String) (arity : Nat),
      (Scopes.single : Scopes V F).findFunction? 0 name arity = none := by
    intro V F name arity
    simp [Scopes.findFunction?]
  constructor
  · decide
  · exact Scopes.founded_single
  · intro k name arity s known
    simp at known
  · decide
  · exact Scopes.founded_single
  · intro k name arity d c known
    simp [Machine.empty] at known
  · intro name arity
    rw [Machine.empty, nothing, nothing]
    exact .none

section

variable {t : Scopes Variable Signature} {i : Nat} {m : Machine} {j : Nat}

/-- A function registered on both sides. -/
theorem parents_bindFunction (parents : Parents t i m j) {f : Callable} {s : Signature}
    (name : String) (declares : f.Declares s)
    (closed : ∀ d c, f = .function d c → c < m.scopes.next) :
    Parents (t.bindFunction i name s.arity s) i
      { m with scopes := m.scopes.bindFunction j name s.arity f } j := by
  constructor
  · rw [Scopes.next_bindFunction]
    exact parents.inside
  · exact Scopes.founded_bindFunction parents.founded _ _ _ _
  · intro k other arity u known
    rw [Scopes.ownFunction?_bindFunction] at known
    split at known
    · next here =>
      cases known
      exact here.2.2.2.symm
    · exact parents.keyed k other arity u known
  · rw [Scopes.next_bindFunction]
    exact parents.there
  · exact Scopes.founded_bindFunction parents.grounded _ _ _ _
  · intro k other arity d c known
    rw [Scopes.next_bindFunction]
    rw [Scopes.ownFunction?_bindFunction] at known
    split at known
    · exact closed d c (Option.some.inj known)
    · exact parents.closed k other arity d c known
  · intro other arity
    rw [Scopes.findFunction?_bindFunction parents.inside,
      Scopes.findFunction?_bindFunction parents.there]
    split
    · exact .some declares
    · exact parents.agree other arity

theorem Scopes.findFunction?_addChild_bindFunction {V F : Type} {t : Scopes V F}
    (founded : t.Founded) {i : Nat} (inside : i < t.next) (name other : String) (arity many : Nat)
    (f : F) :
    ((t.addChild i).bindFunction t.next name arity f).findFunction? t.next other many =
      if other = name ∧ many = arity then some f else t.findFunction? i other many := by
  have new : t.next < (t.addChild i).next := by simp
  rw [Scopes.findFunction?_bindFunction new, Scopes.findFunction?_addChild_new founded inside]

theorem formed_of_parents (parents : Parents t i m j) : (Context.inside t i).Formed :=
  Context.formed_inside parents.inside parents.founded parents.keyed

theorem founded_inside (parents : Parents t i m j) : (m.inside j).scopes.Founded :=
  Scopes.founded_bindFunction (Scopes.founded_addChild parents.grounded parents.there) _ _ _ _

theorem next_inside : (m.inside j).scopes.next = m.scopes.next + 1 := by
  simp [Machine.inside]

theorem inside_next : m.scopes.next < (m.inside j).scopes.next := by
  rw [next_inside]
  exact Nat.lt_succ_self _

theorem agree_inside (parents : Parents t i m j) (name : String) (arity : Nat) :
    Option.Rel Callable.Declares ((m.inside j).scopes.findFunction? m.scopes.next name arity)
      ((Context.inside t i).env.findFunction? name arity) := by
  rw [Context.findFunction?_env]
  unfold Context.inside Machine.inside
  dsimp only
  rw [Scopes.findFunction?_addChild_bindFunction parents.founded parents.inside,
    Scopes.findFunction?_addChild_bindFunction parents.grounded parents.there]
  split
  · exact .some ⟨rfl, rfl⟩
  · exact parents.agree name arity

/-- What the program's own scope does not say of a function, the scope around it says. -/
theorem found_around (parents : Parents t i m j) {name : String} {arity : Nat} {s : Signature}
    (has : (Context.inside t i).env.Has name arity s)
    (free : (Context.inside t i).env.ownFunction? name arity = none) :
    t.findFunction? i name arity = some s := by
  rw [Env.Has, Context.findFunction?_env] at has
  rw [Context.ownFunction?_env] at free
  unfold Context.inside at has free
  dsimp only at has free
  rw [Scopes.findFunction?_addChild_bindFunction parents.founded parents.inside] at has
  rw [Scopes.ownFunction?_bindFunction] at free
  split at has
  · next is => simp [is] at free
  · exact has

end

namespace Scopes

variable {t : Scopes Nat Callable} {home : Nat} {fs : List Function} {name : String} {arity : Nat}
  {f : Callable}

def registerAll (t : Scopes Nat Callable) (home : Nat) : List Function → Scopes Nat Callable
  | [] => t
  | d :: ds => (t.bindFunction home d.name d.arity (.function d home)).registerAll home ds

theorem next_registerAll (t : Scopes Nat Callable) (home : Nat) (fs : List Function) :
    (t.registerAll home fs).next = t.next := by
  induction fs generalizing t with
  | nil => rfl
  | cons d fs ih => exact (ih _).trans (next_bindFunction _ _ _ _)

theorem founded_registerAll (founded : t.Founded) (home : Nat) (fs : List Function) :
    (t.registerAll home fs).Founded := by
  induction fs generalizing t with
  | nil => exact founded
  | cons d fs ih => exact ih (founded_bindFunction founded _ _ _ _)

theorem ownFunction?_registerAll {k : Nat}
    (found : (t.registerAll home fs).ownFunction? k name arity = some f) :
    (∃ d ∈ fs, f = .function d home) ∨ t.ownFunction? k name arity = some f := by
  induction fs generalizing t with
  | nil => exact .inr found
  | cons d fs ih =>
    rcases ih found with ⟨e, member, is⟩ | before
    · exact .inl ⟨e, List.mem_cons_of_mem d member, is⟩
    · rw [ownFunction?_bindFunction] at before
      split at before
      · exact .inl ⟨d, List.mem_cons_self, (Option.some.inj before).symm⟩
      · exact .inr before

/-- What is found is one of the functions, or none of them answers and it was found before. -/
theorem findFunction?_registerAll (inside : home < t.next)
    (found : (t.registerAll home fs).findFunction? home name arity = some f) :
    (∃ d ∈ fs, d.Answers name arity ∧ f = .function d home) ∨
      (∀ d ∈ fs, ¬ d.Answers name arity) ∧ t.findFunction? home name arity = some f := by
  induction fs generalizing t with
  | nil => exact .inr ⟨nofun, found⟩
  | cons d fs ih =>
    rcases ih (by rwa [next_bindFunction]) found with ⟨e, member, answers, is⟩ | ⟨none, before⟩
    · exact .inl ⟨e, List.mem_cons_of_mem d member, answers, is⟩
    · rw [findFunction?_bindFunction inside] at before
      split at before
      · next same =>
        exact .inl
          ⟨d, List.mem_cons_self, ⟨same.1.symm, same.2.symm⟩, (Option.some.inj before).symm⟩
      · next other =>
        refine .inr ⟨fun e member answers => ?_, before⟩
        rcases List.mem_cons.mp member with rfl | member
        · exact other ⟨answers.1.symm, answers.2.symm⟩
        · exact none e member answers

end Scopes

end Plc
