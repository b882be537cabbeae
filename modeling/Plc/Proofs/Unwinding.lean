import Plc.Proofs.Parts
import Plc.Proofs.Recoding.Runs
import Plc.Proofs.Watch

/-!
RETURN unwinds exactly to its call. Statements behind a RETURN in the same list are never reached:
programs that agree up to there have the same runs. A body that ends in a value has evaluated it in
a RETURN of its own and has done nothing after it, whatever the functions that it calls return; and
a body that comes to its end has met no RETURN of its own, so anything may stand in their place.
-/

namespace Plc

mutual

def Stmt.rewrite (g : List Stmt → List Stmt) : Stmt → Stmt
  | .conditional c whenTrue whenFalse =>
    .conditional c (g (Stmt.rewriteEach g whenTrue)) (g (Stmt.rewriteEach g whenFalse))
  | .switch c arms => .switch c (Case.rewriteEach g arms)
  | .loop c body => .loop c (g (Stmt.rewriteEach g body))
  | s => s

def Stmt.rewriteEach (g : List Stmt → List Stmt) : List Stmt → List Stmt
  | [] => []
  | s :: ss => s.rewrite g :: Stmt.rewriteEach g ss

def Case.rewrite (g : List Stmt → List Stmt) : Case → Case
  | .arm value body => .arm value (g (Stmt.rewriteEach g body))

def Case.rewriteEach (g : List Stmt → List Stmt) : List Case → List Case
  | [] => []
  | c :: cs => c.rewrite g :: Case.rewriteEach g cs

end

def Stmt.rewriteAll (g : List Stmt → List Stmt) (ss : List Stmt) : List Stmt :=
  g (Stmt.rewriteEach g ss)

theorem Case.rewriteEach_eq (g : List Stmt → List Stmt) (arms : List Case) :
    Case.rewriteEach g arms = arms.map (Case.change id (Stmt.rewriteAll g)) := by
  induction arms with
  | nil => rfl
  | cons c cs ih =>
    obtain ⟨value, body⟩ := c
    rw [Case.rewriteEach, ih, List.map_cons, Case.change, Option.map_id]
    rfl

def Eval.andThen (first second : Eval Flow) : Eval Flow := do
  match ← first with
  | .next => second
  | .returned v => pure (.returned v)

/-- A relation between ways to go on that holds of wholes when it holds of their parts. -/
structure FlowLaw where
  related : Eval Flow → Eval Flow → Prop
  refl : ∀ act, related act act
  trans : ∀ {act other third}, related act other → related other third → related act third
  bind : ∀ {γ : Type} (act : Eval γ) {next other : γ → Eval Flow},
    (∀ a, related (next a) (other a)) → related (act >>= next) (act >>= other)
  block : ∀ {act other}, related act other → related (Eval.inChild act) (Eval.inChild other)
  chain : ∀ {act other next after}, related act other → related next after →
    related (Eval.andThen act next) (Eval.andThen other after)

namespace FlowLaw

open Eval

variable (L : FlowLaw) {rule : DivisionScale} {g : List Stmt → List Stmt} {fuel : Nat}

def Fits (rule : DivisionScale) (g : List Stmt → List Stmt) : Prop :=
  ∀ fuel ss, L.related (sequence (execute rule fuel) ss) (sequence (execute rule fuel) (g ss))

variable {L}

theorem related_sequence (fits : L.Fits rule g)
    (each : ∀ s, L.related (execute rule fuel s) (execute rule fuel (s.rewrite g)))
    (ss : List Stmt) :
    L.related (sequence (execute rule fuel) ss)
      (sequence (execute rule fuel) (Stmt.rewriteAll g ss)) := by
  refine L.trans ?_ (fits fuel _)
  induction ss with
  | nil => exact L.refl _
  | cons s ss ih => exact L.chain (each s) ih

theorem related_switch (fits : L.Fits rule g)
    (each : ∀ s, L.related (execute rule fuel s) (execute rule fuel (s.rewrite g)))
    (v : Value) (arms : List Case) :
    L.related
      (do
        let body ← matching (evaluate rule fuel) v arms
        match body <|> defaultBody arms with
        | some body => inChild (sequence (execute rule fuel) body)
        | none => pure .next)
      (do
        let body ← matching (evaluate rule fuel) v (Case.rewriteEach g arms)
        match body <|> defaultBody (Case.rewriteEach g arms) with
        | some body => inChild (sequence (execute rule fuel) body)
        | none => pure .next) := by
  have values : ∀ e, evaluate rule fuel (id e) = evaluate rule fuel e := fun _ => rfl
  rw [Case.rewriteEach_eq, matching_change values, defaultBody_change, bind_map_left]
  apply L.bind
  intro body
  have block : ∀ body, L.related (inChild (sequence (execute rule fuel) body))
      (inChild (sequence (execute rule fuel) (Stmt.rewriteAll g body))) :=
    fun body => L.block (related_sequence fits each body)
  cases body with
  | some body => exact block body
  | none =>
    cases defaultBody arms with
    | some body => exact block body
    | none => exact L.refl _

theorem related_execute (fits : L.Fits rule g)
    (each : ∀ s, L.related (execute rule fuel s) (execute rule fuel (s.rewrite g)))
    (loop : ∀ c body, L.related (repeatWhile rule fuel c body)
      (repeatWhile rule fuel c (Stmt.rewriteAll g body))) (s : Stmt) :
    L.related (execute rule (fuel + 1) s) (execute rule (fuel + 1) (s.rewrite g)) := by
  cases s with
  | conditional c whenTrue whenFalse =>
    apply L.bind
    intro b
    cases b with
    | true => exact L.block (related_sequence fits each whenTrue)
    | false => exact L.block (related_sequence fits each whenFalse)
  | switch c arms => exact L.bind _ fun v => L.block (related_switch fits each v arms)
  | loop c body => exact loop c body
  | expression | declaration | assignment | «return» => exact L.refl _

theorem related_repeatWhile (fits : L.Fits rule g)
    (each : ∀ s, L.related (execute rule fuel s) (execute rule fuel (s.rewrite g)))
    (loop : ∀ c body, L.related (repeatWhile rule fuel c body)
      (repeatWhile rule fuel c (Stmt.rewriteAll g body))) (c : Expr) (body : List Stmt) :
    L.related (repeatWhile rule (fuel + 1) c body)
      (repeatWhile rule (fuel + 1) c (Stmt.rewriteAll g body)) := by
  apply L.bind
  intro b
  cases b with
  | true => exact L.chain (L.block (related_sequence fits each body)) (loop c body)
  | false => exact L.refl _

theorem related_at (fits : L.Fits rule g) (fuel : Nat) :
    (∀ s, L.related (execute rule fuel s) (execute rule fuel (s.rewrite g))) ∧
      ∀ c body, L.related (repeatWhile rule fuel c body)
        (repeatWhile rule fuel c (Stmt.rewriteAll g body)) := by
  induction fuel with
  | zero => exact ⟨fun _ => L.refl _, fun _ _ => L.refl _⟩
  | succ fuel ih => exact ⟨related_execute fits ih.1 ih.2, related_repeatWhile fits ih.1 ih.2⟩

/-- What holds of lists of statements themselves holds of all lists in them. -/
theorem related_body (fits : L.Fits rule g) (fuel : Nat) (ss : List Stmt) :
    L.related (sequence (execute rule fuel) ss)
      (sequence (execute rule fuel) (Stmt.rewriteAll g ss)) :=
  related_sequence fits (related_at fits fuel).1 ss

end FlowLaw

def Stmt.upToReturn : List Stmt → List Stmt
  | [] => []
  | .return e :: _ => [.return e]
  | s :: ss => s :: Stmt.upToReturn ss

def Function.trim (f : Function) : Function :=
  { f with body := Stmt.rewriteAll Stmt.upToReturn f.body }

/-- The program without the statements that stand behind a RETURN in their list, at any depth. -/
def Program.trim (p : Program) : Program := { p with functions := p.functions.map Function.trim }

def FlowLaw.same : FlowLaw where
  related := Eq
  refl _ := rfl
  trans := Eq.trans
  bind act _ _ same := congrArg (act >>= ·) (funext same)
  block := congrArg Eval.inChild
  chain first second := first ▸ second ▸ rfl

namespace Eval

variable {rule : DivisionScale} {fuel : Nat}

theorem sequence_return (e : Expr) (ss : List Stmt) :
    sequence (execute rule fuel) (.return e :: ss) = execute rule fuel (.return e) := by
  cases fuel with
  | zero => rfl
  | succ fuel => simp only [sequence, execute, bind_assoc, pure_bind]

theorem sequence_upToReturn (fuel : Nat) (ss : List Stmt) :
    sequence (execute rule fuel) ss = sequence (execute rule fuel) (Stmt.upToReturn ss) := by
  induction ss with
  | nil => rfl
  | cons s ss ih =>
    cases s with
    | «return» e => rw [Stmt.upToReturn, sequence_return, sequence_return]
    | _ => exact congrArg (andThen _) ih

theorem sequence_trim (fuel : Nat) (f : Function) :
    sequence (execute rule fuel) f.trim.body = sequence (execute rule fuel) f.body :=
  (FlowLaw.related_body (L := .same) sequence_upToReturn fuel f.body).symm

theorem recoding_trim (rule : DivisionScale) : Recoding rule Function.trim :=
  recoding_of_body (fun _ => rfl) (fun _ => rfl) sequence_trim

end Eval

namespace Eval

variable {rule : DivisionScale} {fuel : Nat} {α β : Type} {m n : Machine}

theorem bind_ok {act : Eval α} {next : α → Eval β} {b : β} :
    (act >>= next) m = .ok b n ↔ ∃ a k, act m = .ok a k ∧ next a k = .ok b n := by
  show EStateM.bind act next m = .ok b n ↔ _
  unfold EStateM.bind
  cases act m with
  | ok a k =>
    constructor
    · intro rest
      exact ⟨a, k, rfl, rest⟩
    · rintro ⟨_, _, ⟨⟩, rest⟩
      exact rest
  | error e k => simp

theorem inChild_ok {act : Eval α} {a : α} :
    inChild act m = .ok a n ↔
      ∃ k, act (m.entered m.current) = .ok a k ∧ n = k.backIn m.current := by
  unfold inChild inChildOf inScope Machine.entered
  dsimp only
  cases act _ with
  | ok a k =>
    constructor
    · rintro ⟨⟩
      exact ⟨k, rfl, rfl⟩
    · rintro ⟨_, ⟨⟩, rfl⟩
      rfl
  | error e k => simp

theorem andThen_next {first second : Eval Flow} :
    andThen first second m = .ok .next n ↔ ∃ k, first m = .ok .next k ∧ second k = .ok .next n := by
  unfold andThen
  rw [bind_ok]
  constructor
  · rintro ⟨flow, k, ended, rest⟩
    cases flow with
    | next => exact ⟨k, ended, rest⟩
    | returned v => cases rest
  · rintro ⟨k, ended, rest⟩
    exact ⟨.next, k, ended, rest⟩

theorem andThen_returned {first second : Eval Flow} {v : Value}
    (ended : andThen first second m = .ok (.returned v) n) :
    first m = .ok (.returned v) n ∨
      ∃ k, first m = .ok .next k ∧ second k = .ok (.returned v) n := by
  obtain ⟨flow, k, ended, rest⟩ := bind_ok.mp ended
  cases flow with
  | next => exact .inr ⟨k, ended, rest⟩
  | returned w =>
    cases rest
    exact .inl ended

end Eval

def FlowLaw.passing : FlowLaw where
  related act other := ∀ m n, act m = .ok .next n → other m = .ok .next n
  refl _ _ _ passed := passed
  trans first second m n passed := second m n (first m n passed)
  bind act _ _ each m n passed := by
    obtain ⟨a, k, ended, rest⟩ := Eval.bind_ok.mp passed
    exact Eval.bind_ok.mpr ⟨a, k, ended, each a k n rest⟩
  block inner m n passed := by
    obtain ⟨k, ended, back⟩ := Eval.inChild_ok.mp passed
    exact Eval.inChild_ok.mpr ⟨k, inner _ k ended, back⟩
  chain first second m n passed := by
    obtain ⟨k, ended, rest⟩ := Eval.andThen_next.mp passed
    exact Eval.andThen_next.mpr ⟨k, first m k ended, second k n rest⟩

def Stmt.replaceReturn (other : Expr → Stmt) : Stmt → Stmt
  | .return e => other e
  | s => s

namespace Eval

variable {rule : DivisionScale} {fuel : Nat} {α : Type}

theorem execute_return (e : Expr) {m n : Machine} :
    execute rule fuel (.return e) m ≠ .ok .next n := by
  intro ended
  cases fuel with
  | zero => cases ended
  | succ fuel =>
    obtain ⟨v, k, -, rest⟩ := bind_ok.mp ended
    cases rest

theorem passing_replaceReturn (other : Expr → Stmt) :
    FlowLaw.passing.Fits rule (List.map (Stmt.replaceReturn other)) := by
  intro fuel ss
  induction ss with
  | nil => exact FlowLaw.passing.refl _
  | cons s ss ih =>
    refine FlowLaw.passing.chain ?_ ih
    cases s with
    | «return» e => exact fun m n ended => absurd ended (execute_return e)
    | _ => exact FlowLaw.passing.refl _

/-- The machine is as `e` left it when its value was `v`, but for the scope that is current. -/
def JustGave (rule : DivisionScale) (e : Expr) (v : Value) (n : Machine) : Prop :=
  ∃ fuel m k, evaluate rule fuel e m = .ok v k ∧ n = k.backIn n.current

/-- When `act` returns, then one of the statements is a RETURN that has just given the value. -/
def ReturnsIn (rule : DivisionScale) (ss : List Stmt) (act : Eval Flow) : Prop :=
  ∀ m v n, act m = .ok (.returned v) n → ∃ e, .return e ∈ ss ∧ JustGave rule e v n

variable {ss ts : List Stmt}

theorem returnsIn_mono {act : Eval Flow} (returns : ReturnsIn rule ss act) (among : ss ⊆ ts) :
    ReturnsIn rule ts act := by
  intro m v n ended
  obtain ⟨e, member, gave⟩ := returns m v n ended
  exact ⟨e, among member, gave⟩

theorem returnsIn_next : ReturnsIn rule ss (pure .next) := fun _ _ _ ended => by cases ended

theorem returnsIn_throw (e : Halt) : ReturnsIn rule ss (throw e) := fun _ _ _ ended => by
  cases ended

theorem returnsIn_bind {act : Eval α} {next : α → Eval Flow}
    (rest : ∀ m a k, act m = .ok a k → ReturnsIn rule ss (next a)) :
    ReturnsIn rule ss (act >>= next) := by
  intro m v n ended
  obtain ⟨a, k, first, ended⟩ := bind_ok.mp ended
  exact rest m a k first k v n ended

theorem returnsIn_inChild {act : Eval Flow} (inner : ReturnsIn rule ss act) :
    ReturnsIn rule ss (inChild act) := by
  intro m v n ended
  obtain ⟨k, inside, rfl⟩ := inChild_ok.mp ended
  obtain ⟨e, member, fuel, before, after, gave, back⟩ := inner _ v k inside
  refine ⟨e, member, fuel, before, after, gave, ?_⟩
  rw [back]
  rfl

theorem returnsIn_andThen {first second : Eval Flow} (one : ReturnsIn rule ss first)
    (two : ReturnsIn rule ss second) : ReturnsIn rule ss (andThen first second) := by
  intro m v n ended
  rcases andThen_returned ended with ended | ⟨k, -, ended⟩
  · exact one m v n ended
  · exact two k v n ended

theorem returnsIn_sequence (each : ∀ s, ReturnsIn rule s.parts (execute rule fuel s))
    (ss : List Stmt) :
    ReturnsIn rule (Stmt.allParts ss) (sequence (execute rule fuel) ss) := by
  induction ss with
  | nil => exact returnsIn_next
  | cons s ss ih =>
    exact returnsIn_andThen (returnsIn_mono (each s) Stmt.parts_head)
      (returnsIn_mono ih Stmt.parts_tail)

theorem body_of_matching {act : Expr → Eval Value} {v : Value} {arms : List Case}
    {m n : Machine} {body : List Stmt} (ended : matching act v arms m = .ok (some body) n) :
    ∃ arm ∈ arms, arm.body = body := by
  induction arms generalizing m with
  | nil => cases ended
  | cons c cs ih =>
    have later : ∀ {m}, matching act v cs m = .ok (some body) n →
        ∃ arm ∈ c :: cs, arm.body = body := fun ended => by
      obtain ⟨arm, member, same⟩ := ih ended
      exact ⟨arm, List.mem_cons_of_mem _ member, same⟩
    obtain ⟨value, own⟩ := c
    cases value with
    | none => exact later ended
    | some e =>
      obtain ⟨w, k, -, ended⟩ := bind_ok.mp ended
      obtain ⟨same, l, -, ended⟩ := bind_ok.mp ended
      cases same with
      | true =>
        cases ended
        exact ⟨_, List.mem_cons_self, rfl⟩
      | false => exact later ended

theorem returnsIn_switch (each : ∀ s, ReturnsIn rule s.parts (execute rule fuel s)) (c : Expr)
    (v : Value) (arms : List Case) :
    ReturnsIn rule (Stmt.switch c arms).parts (do
      let body ← matching (evaluate rule fuel) v arms
      match body <|> defaultBody arms with
      | some body => inChild (sequence (execute rule fuel) body)
      | none => pure .next) := by
  have block : ∀ body, (∃ arm ∈ arms, arm.body = body) →
      ReturnsIn rule (Stmt.switch c arms).parts
        (inChild (sequence (execute rule fuel) body)) := by
    rintro _ ⟨arm, member, rfl⟩
    exact returnsIn_inChild (returnsIn_mono (returnsIn_sequence each _) (Stmt.parts_arm member))
  apply returnsIn_bind
  intro m found k ended
  have among : ∀ body, found = some body → ∃ arm ∈ arms, arm.body = body := by
    rintro body rfl
    exact body_of_matching ended
  cases chosen : found <|> defaultBody arms with
  | some body => exact block body (Eval.mem_of_chosen among chosen)
  | none => exact returnsIn_next

theorem returnsIn_execute (each : ∀ s, ReturnsIn rule s.parts (execute rule fuel s))
    (loop : ∀ c body, ReturnsIn rule (Stmt.allParts body) (repeatWhile rule fuel c body))
    (s : Stmt) : ReturnsIn rule s.parts (execute rule (fuel + 1) s) := by
  cases s with
  | expression e => exact returnsIn_bind fun _ _ _ _ => returnsIn_next
  | declaration name typeName value record =>
    cases value <;>
      exact returnsIn_bind fun _ _ _ _ => returnsIn_bind fun _ _ _ _ => returnsIn_next
  | assignment receiver value => exact returnsIn_bind fun _ _ _ _ => returnsIn_next
  | conditional c whenTrue whenFalse =>
    apply returnsIn_bind
    intro m b k _
    apply returnsIn_inChild
    cases b with
    | true => exact returnsIn_mono (returnsIn_sequence each _) Stmt.parts_whenTrue
    | false => exact returnsIn_mono (returnsIn_sequence each _) Stmt.parts_whenFalse
  | switch c arms =>
    exact returnsIn_bind fun _ v _ _ => returnsIn_inChild (returnsIn_switch each c v arms)
  | loop c body => exact returnsIn_mono (loop c body) Stmt.parts_loop
  | «return» e =>
    intro m v n ended
    obtain ⟨w, k, gave, ended⟩ := bind_ok.mp ended
    cases ended
    exact ⟨e, Stmt.mem_parts _, fuel, m, n, gave, rfl⟩

theorem returnsIn_repeatWhile (each : ∀ s, ReturnsIn rule s.parts (execute rule fuel s))
    (loop : ∀ c body, ReturnsIn rule (Stmt.allParts body) (repeatWhile rule fuel c body))
    (c : Expr) (body : List Stmt) :
    ReturnsIn rule (Stmt.allParts body) (repeatWhile rule (fuel + 1) c body) := by
  apply returnsIn_bind
  intro m b k _
  cases b with
  | true => exact returnsIn_andThen (returnsIn_inChild (returnsIn_sequence each body)) (loop c body)
  | false => exact returnsIn_next

theorem returnsIn_at (rule : DivisionScale) (fuel : Nat) :
    (∀ s, ReturnsIn rule s.parts (execute rule fuel s)) ∧
      ∀ c body, ReturnsIn rule (Stmt.allParts body) (repeatWhile rule fuel c body) := by
  induction fuel with
  | zero => exact ⟨fun _ => returnsIn_throw _, fun _ _ => returnsIn_throw _⟩
  | succ fuel ih => exact ⟨returnsIn_execute ih.1 ih.2, returnsIn_repeatWhile ih.1 ih.2⟩

end Eval

/-- RETURN unwinds exactly to its call. Programs that differ in nothing but what stands behind a
RETURN, at any depth, end alike and print the same lines. A body that returns a value has just been
given it by a RETURN of its own. One that does not return has met none: it comes to the same end
with any other statements in their place. -/
theorem return_unwinds {p q : Program} (alike : p.trim = q.trim) (m : Machine)
    (rule : DivisionScale) (fuel : Nat) :
    (m.run rule fuel p).1 = (m.run rule fuel q).1 ∧
      ∀ body n,
        (∀ v, Eval.sequence (Eval.execute rule fuel) body m = .ok (.returned v) n →
          ∃ e, .return e ∈ Stmt.allParts body ∧ Eval.JustGave rule e v n) ∧
        (Eval.sequence (Eval.execute rule fuel) body m = .ok .next n →
          ∀ other, Eval.sequence (Eval.execute rule fuel)
            (Stmt.rewriteAll (List.map (Stmt.replaceReturn other)) body) m = .ok .next n) := by
  constructor
  · have first := m.run_recode (Eval.recoding_trim rule) fuel p
    have second := m.run_recode (Eval.recoding_trim rule) fuel q
    rw [← Program.trim, alike, Program.trim, second, Prod.mk.injEq] at first
    exact first.1.symm
  · intro body n
    constructor
    · exact fun v ended => Eval.returnsIn_sequence (Eval.returnsIn_at rule fuel).1 body m v n ended
    · intro ended other
      exact FlowLaw.related_body (Eval.passing_replaceReturn other) fuel body m n ended

/-- The search returns from an IF in a WHILE; `rest` stands behind that RETURN. -/
def seeking (rest : List Stmt) : Program where
  globals := []
  functions := [
    ⟨"seek", [], some "Integer", [
      .declaration "i" none (some (.literal (.integer 0) none)) none,
      .loop (.literal (.boolean true) none) [
        .conditional
          (.binary .equal (.access "i" none none) (.literal (.integer 3) none) none)
          (.return (.access "i" none none) :: rest) [],
        .assignment (.access "i" none none)
          (.binary .add (.access "i" none none) (.literal (.integer 1) none) none)],
      .return (.literal (.integer 7) none)], none⟩,
    ⟨"main", [], some "Integer", [
      .return (.binary .multiply (.call "seek" [] none none) (.literal (.integer 10) none) none)],
      none⟩]

/-- A call of a function that does not exist changes nothing where it is not reached. -/
theorem return_unwinds_seeking :
    (seeking [.expression (.call "absent" [] none none)]).trim = (seeking []).trim ∧
      (Machine.fresh.run .dividend 40
          (seeking [.expression (.call "absent" [] none none)])).1 =
        (Machine.fresh.run .dividend 40 (seeking [])).1 ∧
      (seeking []).run .dividend 40 = ⟨.exit 30, []⟩ := by
  have alike : (seeking [.expression (.call "absent" [] none none)]).trim = (seeking []).trim := rfl
  exact ⟨alike, (return_unwinds alike .fresh .dividend 40).1, by decide +kernel⟩

end Plc
