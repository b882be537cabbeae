import Plc.Proofs.Discipline.Statements
import Plc.Proofs.Typing.Sound

/-!
Whole programs under a discipline: the globals are defined in a scope that grows with them, then the
functions, and only then is anything called. All moments of the run are good, and it ends in none
but the permitted errors.
-/

namespace Plc.Discipline

open Watched

variable {rule : DivisionScale} {D : Discipline rule} {W : Frame} {h : History} {Γ Δ : Env}

def Told (D : Discipline rule) (k : History) : Prop := ∀ x ∈ k.moments, D.Good k.records x

theorem execs_global {g : Global} {T : Ty} {value : Value} (sound : D.Sound W h)
    (fits : D.FitsIn W Γ h) (free : Γ.own? g.name = none) (none : W.bindings = [])
    (noting : Slot D.noted g.record (g.variable T))
    (holds : D.typed → D.Holds h.machine.heap (g.variable T) value)
    (fresh : D.typed → g.list = true → ∀ p, value = .list p →
      p < h.machine.heap.size ∧ ∀ i, ¬ ListAt h.records h.machine i p) :
    D.Execs W h (define g.record g.name g.mutable value) fun _ k =>
      D.FitsIn W (Γ.bind (g.variable T)) k := by
  rw [← Global.variable_name g T] at free ⊢
  exact execs_define g.mutable sound fits free (.inr none) noting holds
    fun strict list p held => fresh strict (Global.variable_list g T ▸ list) p held

theorem sound_global (fuel : Nat) {g : Global} {T : Ty}
    (declared : DeclaredOk D.noted Γ g.typeName g.value T) (free : Γ.own? g.name = none)
    (noting : Slot D.noted g.record (g.variable T)) (fine : D.FineGlobal g) (none : W.bindings = [])
    (fits : D.FitsIn W Γ h) (sound : D.Sound W h) :
    D.Execs W h (defineGlobal rule fuel g) fun _ k => D.FitsIn W (Γ.bind (g.variable T)) k := by
  have ih := sound_at D W fuel
  have sees := fits.toSees
  -- a list variable starts from a list of its own
  have listed : ∀ v k, D.Still W h k → g.list = true → (∃ p, v = .list p ∧ p < k.machine.heap.size ∧
      (∀ u ∈ k.machine.heap.elements p, D.conforms T u) ∧
        (D.typed → ∀ i, ¬ ListAt k.records k.machine i p)) →
      D.Execs W k (define g.record g.name g.mutable v) fun _ l =>
        D.FitsIn W (Γ.bind (g.variable T)) l := by
    rintro v k still list ⟨p, rfl, inside, conform, apart⟩
    refine execs_global still.sound (fits_still sound still fits) free none noting (fun _ => ?_)
      fun strict _ q is => ?_
    · simp only [Global.variable, list, if_true, Holds, Variable.ofList]
      exact ⟨p, rfl, inside, conform⟩
    · cases is
      exact ⟨inside, apart strict⟩
  have single : ∀ v k, D.Still W h k → (D.typed → g.list = false) → D.conforms T v →
      D.Execs W k (define g.record g.name g.mutable v) fun _ l =>
        D.FitsIn W (Γ.bind (g.variable T)) l := by
    intro v k still list conforms
    refine execs_global still.sound (fits_still sound still fits) free none noting
      (fun strict => ?_) fun strict is => ?_
    · simp only [Global.variable, list strict, Bool.false_eq_true, if_false, Holds, Variable.single]
      exact conforms
    · rw [list strict] at is
      cases is
  obtain ⟨name, typeName, mutable, list, value, record⟩ := g
  cases value with
  | none =>
    cases list with
    | true =>
      refine execs_after (evals_newList [] sound) fun v k still made => listed v k still rfl ?_
      obtain ⟨p, is, inside, elements, apart⟩ := made
      exact ⟨p, is, inside, by simp [elements], apart⟩
    | false =>
      have lenient : D.lenient := fine.resolve_left (by simp)
      have none : D.Evals W h (pure .nil) fun v _ => D.conforms T v :=
        evals_pure sound (D.nil lenient T)
      exact execs_after none fun v k still conforms => single v k still (fun _ => rfl) conforms
  | some e =>
    rcases fine with ⟨plain, fineE⟩ | ⟨es, slot, is, rfl, fineEs⟩
    · refine execs_after (evals_declared ih declared (fun x is => ?_) (fun is => by cases is) sees
        sound) fun v k still conforms => single v k still plain conforms
      cases is
      exact fineE
    · cases fuel with
      | zero =>
        have stopped : D.Evals W h (throw .exhausted : Watched Value) fun _ _ => False :=
          runs_throw (still_refl sound) fun e same => by cases same
        exact execs_after stopped fun _ _ _ never => never.elim
      | succ fuel =>
        have literal : ∀ {declared : Option Ty} {S : Ty},
            InitialOk D.noted Γ declared (.list es slot) S →
            D.Evals W h (es.mapM (evaluate rule fuel)) (fun vs _ => ∀ v ∈ vs, D.conforms S v) ∧
              Slot D.noted slot S := by
          intro declared S initial
          cases initial with
          | empty noting => exact ⟨evals_pure sound (by simp), noting⟩
          | value typed =>
            cases typed with
            | list head tail ty =>
              exact ⟨evals_elements (sound_at D W fuel) (List.forall_mem_cons.mpr
                ⟨head, hasTy_of_elements tail⟩) fineEs sees sound, ty⟩
        cases declared with
        | both _ initial accepts =>
          obtain ⟨elements, ty⟩ := literal initial
          refine execs_after (evals_literalList elements ty) fun v k still made =>
            listed v k still is ?_
          obtain ⟨p, is, inside, conform, apart⟩ := made
          exact ⟨p, is, inside, fun u element => D.accepts (conform u element) accepts, apart⟩
        | valueOnly initial =>
          obtain ⟨elements, ty⟩ := literal initial
          exact execs_after (evals_literalList elements ty) fun v k still made =>
            listed v k still is made

theorem sound_globals (fuel : Nat) {gs : List Global} (ok : GlobalsOk D.noted Γ gs Δ)
    (fine : ∀ g ∈ gs, D.FineGlobal g) (none : W.bindings = []) (fits : D.FitsIn W Γ h)
    (sound : D.Sound W h) :
    D.Execs W h (gs.forM (defineGlobal rule fuel)) fun _ k => D.FitsIn W Δ k := by
  induction ok generalizing h with
  | nil => exact execs_pure sound fits
  | @cons Γ Δ g gs T declared free noting others rest =>
    apply execs_bind (sound_global fuel declared free noting (fine g List.mem_cons_self) none fits
      sound)
    intro _ k since fits'
    exact rest (fun f member => fine f (List.mem_cons_of_mem g member)) fits' since.sound

theorem functions_grow {noted : Prop} {fs : List Function} (ok : FunctionsOk noted Γ fs Δ) :
    Δ.top.bindings = Γ.top.bindings ∧ Δ.around = Γ.around ∧
      ∀ key s, Γ.top.functions.lookup key = some s → Δ.top.functions.lookup key = some s := by
  induction ok with
  | nil => exact ⟨rfl, rfl, fun _ _ => id⟩
  | @cons Γ Δ f fs s free body others rest =>
    obtain ⟨bindings, around, grow⟩ := rest
    refine ⟨bindings, around, fun key t known => grow key t ?_⟩
    have other : (key == (s.name, s.arity)) = false := by
      rw [beq_eq_false_iff_ne]
      rintro rfl
      rw [Env.ownFunction?] at free
      rw [free] at known
      cases known
    simp only [Env.bindFunction, List.lookup_cons, other]
    exact known

theorem findVariable?_global (Γ : Env) (alone : Γ.around = [⟨[], []⟩]) (name : String) :
    Γ.findVariable? name = Γ.top.bindings.lookup name := by
  simp only [Env.findVariable?, alone, List.findSome?_cons, List.findSome?_nil, List.lookup_nil]
  cases Γ.top.bindings.lookup name <;> rfl

theorem findFunction?_global (Γ : Env) (alone : Γ.around = [⟨[], []⟩]) (name : String)
    (arity : Nat) : Γ.findFunction? name arity = Γ.top.functions.lookup (name, arity) := by
  simp only [Env.findFunction?, alone, List.findSome?_cons, List.findSome?_nil, List.lookup_nil]
  cases Γ.top.functions.lookup (name, arity) <;> rfl

/-- While functions are defined: what is known is implemented, as far as `W` goes. -/
structure Defining (D : Discipline rule) (W : Frame) (Γ : Env) (h : History) : Prop where
  told : D.Told h
  stored : D.Stored h.records h.machine
  here : h.machine.current < h.machine.scopes.next
  home : h.machine.current = h.machine.home
  founded : h.machine.scopes.Founded
  names : ∀ name v, Γ.findVariable? name = some v →
    ∃ i, h.machine.scopes.findVariable? h.machine.home name = some i ∧
      (D.noted → h.records[i]? = some (some v))
  free : ∀ name arity, Γ.ownFunction? name arity = none →
    h.machine.scopes.ownFunction? h.machine.home name arity = none
  implemented : ∀ name arity s, Γ.top.functions.lookup (name, arity) = some s →
    ∃ f, h.machine.scopes.ownFunction? h.machine.home name arity = some f ∧
      D.Implements W h.machine.home s f

theorem defining_function {f : Function} {s : Signature} (defining : D.Defining W Γ h)
    (free : Γ.ownFunction? s.name s.arity = none) (body : BodyOk D.noted (Γ.bindFunction s) f s)
    (fine : D.FineFunction f) (below : Below W (Γ.bindFunction s)) :
    Runs (fun _ k => D.Told k) D.Stops h (step (Eval.defineFunction f)) fun _ k =>
      D.Defining W (Γ.bindFunction s) k := by
  obtain ⟨told, stored, here, home, founded, names, own, implemented⟩ := defining
  have name : s.name = f.name := body.name
  have arity : s.arity = f.arity := (many_of_mapM body.types).symm
  have clash := own s.name s.arity free
  have later : h.machine.home < h.machine.scopes.next := home ▸ here
  rw [name, arity, ← home] at clash
  let m : Machine := { h.machine with
    scopes := h.machine.scopes.bindFunction h.machine.current f.name f.arity
      (.function f h.machine.current) }
  have ends : Eval.defineFunction f h.machine = .ok () m := by
    simp only [Eval.defineFunction, Scopes.functionClash?, clash, Option.isSome_none,
      Bool.false_eq_true, if_false, m]
  have records := records_reach h m
  have stored' : D.Stored h.records m := ⟨stored.size, stored.conform, stored.apart⟩
  have told' : D.Told (h.reach m) := by
    rw [Told, History.reach, records]
    exact good_come told stored' trivial
  refine runs_step ?_
  rw [ends]
  refine ⟨told', told', ?_, ?_, home, Scopes.founded_bindFunction founded _ _ _ _,
    fun other v known => ?_, fun other many none => ?_, fun other many t known => ?_⟩
  · rw [History.reach, records]
    exact stored'
  · simpa [m, History.reach, History.come] using here
  · obtain ⟨i, found, noted⟩ := names other v known
    refine ⟨i, ?_, by rw [History.reach, records]; exact noted⟩
    exact (Scopes.findVariable?_bindFunction _ _ _ _ _ _).trans found
  · rw [Env.ownFunction?_bindFunction, name, arity] at none
    simp only [m, History.reach, History.come, Scopes.ownFunction?_bindFunction, home]
    split at none
    · cases none
    · next differ =>
      rw [if_neg fun is => differ is.2.2]
      exact own other many none
  · have known' : (Γ.bindFunction s).ownFunction? other many = some t := known
    rw [Env.ownFunction?_bindFunction, name, arity] at known'
    simp only [m, History.reach, History.come, Scopes.ownFunction?_bindFunction, home]
    split at known'
    · next is =>
      cases known'
      exact ⟨_, if_pos ⟨trivial, later, is⟩, rfl, fine, _, below, body⟩
    · next differ =>
      obtain ⟨g, found, implements⟩ := implemented other many t known'
      exact ⟨g, by rw [if_neg fun is => differ is.2.2, found], implements⟩

theorem sound_functions {fs : List Function} (ok : FunctionsOk D.noted Γ fs Δ)
    (fine : ∀ f ∈ fs, D.FineFunction f) (alone : Γ.around = [⟨[], []⟩])
    (defining : D.Defining ⟨Δ.top.bindings, Δ.top.functions⟩ Γ h) :
    Runs (fun _ k => D.Told k) D.Stops h (fs.forM fun f => step (Eval.defineFunction f)) fun _ k =>
      D.Defining ⟨Δ.top.bindings, Δ.top.functions⟩ Δ k := by
  induction ok generalizing h with
  | nil => exact runs_pure defining.told defining
  | @cons Γ Δ f fs s free body others rest =>
    -- functions are only added, so what a body may call is still there when the program runs
    have below : Below ⟨Δ.top.bindings, Δ.top.functions⟩ (Γ.bindFunction s) := by
      obtain ⟨bindings, _, grow⟩ := functions_grow others
      refine ⟨fun name v known => ?_, fun name arity t known => ?_⟩
      · rw [findVariable?_global (Γ.bindFunction s) alone] at known
        rw [bindings, known]
      · rw [findFunction?_global (Γ.bindFunction s) alone] at known
        exact grow _ _ known
    apply runs_bind (fun _ told => told)
      (defining_function defining free body (fine f List.mem_cons_self) below)
    intro _ k _ defining'
    exact rest (fun g member => fine g (List.mem_cons_of_mem f member)) alone defining'

theorem sound_of_defining (defining : D.Defining ⟨Γ.top.bindings, Γ.top.functions⟩ Γ h)
    (alone : Γ.around = [⟨[], []⟩]) : D.Sound ⟨Γ.top.bindings, Γ.top.functions⟩ h := by
  obtain ⟨told, stored, here, home, founded, names, own, implemented⟩ := defining
  refine ⟨⟨here, home ▸ here, founded, fun name arity => by rw [home],
    fun name arity s known => ?_, fun name v known => ?_⟩, stored, told⟩
  · obtain ⟨f, found, implements⟩ := implemented name arity s known
    refine ⟨f, ?_, implements⟩
    simp only [Scopes.findFunction?, Scopes.path, List.findSome?_cons, found]
  · exact names name v (by rw [findVariable?_global Γ alone]; exact known)

theorem globals_grow {noted : Prop} {gs : List Global} (ok : GlobalsOk noted Γ gs Δ) :
    Δ.top.functions = Γ.top.functions ∧ Δ.around = Γ.around := by
  induction ok with
  | nil => exact ⟨rfl, rfl⟩
  | cons _ _ _ _ rest => exact rest

def begin : History := .start { Machine.fresh with output := #[] }

def printOnly : Frame := ⟨[], [(("print", 1), Typing.printSignature)]⟩

theorem lookup_printOnly {name : String} {arity : Nat} {s : Signature}
    (known : printOnly.functions.lookup (name, arity) = some s) :
    name = "print" ∧ arity = 1 ∧ s = Typing.printSignature := by
  simp only [printOnly, List.lookup_cons, List.lookup_nil] at known
  split at known
  · next is =>
    simp only [beq_iff_eq, Prod.mk.injEq] at is
    cases known
    exact ⟨is.1, is.2, rfl⟩
  · cases known

theorem ownFunction?_begin (name : String) (arity : Nat) :
    begin.machine.scopes.ownFunction? begin.machine.home name arity =
      if name = "print" ∧ arity = 1 then some .print else none := by
  simp only [begin, History.start, Machine.fresh, Machine.inside, Scopes.ownFunction?_bindFunction]
  split
  · next is => exact (if_pos is.2.2).symm
  · next differ =>
    rw [if_neg fun is => differ ⟨trivial, by simp [Machine.empty], is⟩]
    simp [Scopes.ownFunction?, Scopes.scope?_addChild, Machine.empty]

theorem founded_begin : begin.machine.scopes.Founded :=
  Scopes.founded_bindFunction
    (Scopes.founded_addChild Scopes.founded_single (by simp [Scopes.single, Scopes.next])) _ _ _ _

theorem sound_begin (D : Discipline rule) :
    D.Sound printOnly begin ∧ D.FitsIn printOnly Context.fresh.env begin := by
  have nothing : ∀ name v, Context.fresh.env.findVariable? name = some v → False := by
    intro name v known
    rw [findVariable?_global Context.fresh.env rfl] at known
    cases known
  refine ⟨⟨⟨by decide, by decide, founded_begin, fun _ _ => rfl, fun name arity s known => ?_,
    nofun⟩, ⟨rfl, fun _ _ _ _ known => (nomatch known), fun _ i j p held => ?_⟩,
    nofun⟩, ⟨⟨fun name v known => (nothing name v known).elim, fun name arity s known => ?_⟩,
    fun name _ => rfl⟩⟩
  · obtain ⟨rfl, rfl, rfl⟩ := lookup_printOnly known
    exact ⟨.print, rfl, rfl⟩
  · obtain ⟨v, c, known, _⟩ := held
    cases known
  · rwa [findFunction?_global Context.fresh.env rfl] at known

theorem defining_begin {k : History} (since : D.Since printOnly begin k)
    (fits : D.FitsIn printOnly Γ k) (functions : Γ.top.functions = printOnly.functions) :
    D.Defining W Γ k := by
  have sound := since.sound
  have home : k.machine.current = k.machine.home := by
    rw [since.current, since.home]
    rfl
  have own : ∀ name arity, k.machine.scopes.ownFunction? k.machine.home name arity =
      if name = "print" ∧ arity = 1 then some .print else none := by
    intro name arity
    rw [since.home, Scopes.ownFunction?_of_later since.scopes (by decide), ownFunction?_begin]
  refine ⟨sound.moments, sound.stored, sound.placed.here, home, sound.placed.founded,
    home ▸ fits.names, fun name arity none => ?_, fun name arity s known => ?_⟩
  · rw [own, if_neg]
    rintro ⟨rfl, rfl⟩
    rw [Env.ownFunction?, functions] at none
    cases none
  · rw [functions] at known
    obtain ⟨rfl, rfl, rfl⟩ := lookup_printOnly known
    exact ⟨.print, own "print" 1, rfl⟩

theorem evals_mainResult {v : Value} (conforms : D.conforms .integer v) (sound : D.Sound W h) :
    D.Evals W h (step (Eval.mainResult v)) fun _ _ => True := by
  apply evals_look sound (looks_mainResult v) (fun _ _ => trivial)
  intro e stopped cause same
  subst same
  cases v with
  | integer n => cases stopped
  | _ =>
    cases stopped
    rcases D.exit conforms with ⟨n, is⟩ | permits
    · cases is
    · exact permits

theorem told_program (fuel : Nat) {p : Program} (ok : ProgramOk D.noted Context.fresh.env p Δ)
    (fine : D.FineProgram p) :
    Runs (fun _ k => D.Told k) D.Stops begin (program rule fuel p) fun _ _ => True := by
  obtain ⟨⟨Θ, globals, functions⟩, s, known, alone, integer⟩ := ok
  obtain ⟨sound, fits⟩ := sound_begin D
  obtain ⟨sameG, aroundG⟩ := globals_grow globals
  obtain ⟨_, aroundF, _⟩ := functions_grow functions
  -- nothing is called while the globals are defined, except `print`
  have first : Runs (fun _ k => D.Told k) D.Stops begin
      (p.globals.forM (defineGlobal rule fuel)) fun _ k =>
        D.Defining ⟨Δ.top.bindings, Δ.top.functions⟩ Θ k := by
    refine runs_mono (runs_imp (sound_globals fuel globals fine.globals rfl fits sound)
      fun _ k since fits' => defining_begin since fits' sameG) (fun k since => since.sound.moments)
      fun _ _ => id
  apply runs_bind (fun _ told => told) first
  intro _ k _ defining
  refine runs_bind (fun _ told => told) (sound_functions functions fine.functions aroundG defining)
    fun _ l _ defining => runs_get (runs_get ?_)
  have around : Δ.around = [⟨[], []⟩] := aroundF.trans aroundG
  have sound := sound_of_defining defining around
  rw [findFunction?_global Δ around] at known
  obtain ⟨main, found, implements⟩ := sound.placed.functions "main" 0 s known
  rw [← sound.placed.sight] at found
  rw [found]
  have none : List.Forall₂ D.conforms s.parameters [] := by
    rw [alone]
    exact .nil
  have called := (sound_at D _ fuel).invoke implements none sound
  refine runs_mono (evals_bind called fun v m still conforms => ?_)
    (fun m still => still.sound.moments) fun _ _ => id
  exact evals_mainResult (integer ▸ conforms) still.sound

/-- A well-typed program that a discipline admits keeps to it at every moment of every run. -/
theorem sound_program (D : Discipline rule) {p : Program} (fuel : Nat)
    (ok : ProgramOk D.noted Context.fresh.env p Δ) (fine : D.FineProgram p) :
    D.Told (Machine.fresh.history rule fuel p) ∧
      ∀ e, (p.run rule fuel).ending = .error e → D.permits e := by
  have ran := runs_program (m := Machine.fresh) (told_program fuel ok fine)
  refine ⟨ran.1, fun e ending => ?_⟩
  have stops := ran.2
  rw [show (Machine.fresh.run rule fuel p).1.ending = .error e from ending] at stops
  exact stops e rfl

end Plc.Discipline
