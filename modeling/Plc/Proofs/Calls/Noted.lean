import Plc.Proofs.Parts
import Plc.Proofs.Typing.Judgement

/-!
What analysis notes in calls. In a typed tree with its slots filled, every call at any depth bears
the signature that its name and its number of arguments have in the environment.
-/

namespace Plc

def Expr.Noted (has : String → Nat → Signature → Prop) (e : Expr) : Prop :=
  ∀ name args signature slot, e = .call name args signature slot →
    ∃ s, signature = some s ∧ has name args.length s

def Env.Has (Γ : Env) (name : String) (arity : Nat) (s : Signature) : Prop :=
  Γ.findFunction? name arity = some s

section

variable {Γ Δ : Env} {T : Ty} {x : Expr}

mutual

theorem noted_of_hasTy {Γ : Env} {T : Ty} {x : Expr} (e : Expr) (typed : HasTy True Γ e T)
    (member : x ∈ e.parts) : x.Noted Γ.Has := by
  cases e with
  | literal value slot =>
    obtain rfl := List.mem_singleton.mp member
    nofun
  | group inner slot =>
    cases typed with
    | group _ typed =>
      rcases List.mem_cons.mp member with rfl | member
      · nofun
      · exact noted_of_hasTy inner typed member
  | binary op left right slot =>
    cases typed with
    | binary first second =>
      rcases List.mem_cons.mp member with rfl | member
      · nofun
      · rcases List.mem_append.mp member with member | member
        · exact noted_of_hasTy left first member
        · exact noted_of_hasTy right second member
  | access name record slot =>
    obtain rfl := List.mem_singleton.mp member
    nofun
  | element name index record slot =>
    cases typed with
    | element _ _ position =>
      rcases List.mem_cons.mp member with rfl | member
      · nofun
      · exact noted_of_hasTy index position member
  | call name args signature slot =>
    cases typed with
    | @call _ _ s _ _ known passed noting =>
      rcases List.mem_cons.mp member with rfl | member
      · rintro _ _ _ _ ⟨⟩
        exact ⟨s, noting trivial, known⟩
      · exact noted_of_arguments s.parameters args passed member
  | list elements slot =>
    cases typed with
    | @list first others _ _ head tail =>
      rcases List.mem_cons.mp member with rfl | member
      · nofun
      · rcases List.mem_append.mp member with member | member
        · exact noted_of_hasTy first head member
        · exact noted_of_elements others tail member

theorem noted_of_arguments {Γ : Env} {x : Expr} (types : List Ty) (es : List Expr)
    (passed : ArgumentsOk True Γ types es) (member : x ∈ Expr.allParts es) :
    x.Noted Γ.Has := by
  cases es with
  | nil => cases member
  | cons e es =>
    cases passed with
    | cons typed _ others =>
      rcases List.mem_append.mp member with member | member
      · exact noted_of_hasTy e typed member
      · exact noted_of_arguments _ es others member

theorem noted_of_elements {Γ : Env} {T : Ty} {x : Expr} (es : List Expr)
    (ok : ElementsOk True Γ T es) (member : x ∈ Expr.allParts es) : x.Noted Γ.Has := by
  cases es with
  | nil => cases member
  | cons e es =>
    cases ok with
    | cons typed others =>
      rcases List.mem_append.mp member with member | member
      · exact noted_of_hasTy e typed member
      · exact noted_of_elements es others member

end

theorem noted_of_declared {typeName : Option String} {e : Expr}
    (declared : DeclaredOk True Γ typeName (some e) T) (member : x ∈ e.parts) :
    x.Noted Γ.Has := by
  have initial : ∀ {given S}, InitialOk True Γ given e S → x.Noted Γ.Has := by
    intro given S initial
    cases initial with
    | empty =>
      obtain rfl := List.mem_singleton.mp member
      nofun
    | value typed => exact noted_of_hasTy e typed member
  cases declared with
  | both _ first => exact initial first
  | valueOnly first => exact initial first

theorem noted_of_globals {gs : List Global} (ok : GlobalsOk True Γ gs Δ) :
    ∀ g ∈ gs, ∀ e, g.value = some e → ∀ x ∈ e.parts, x.Noted Γ.Has := by
  induction ok with
  | nil => nofun
  | @cons Γ Δ g gs T declared free noting others rest =>
    intro f member e value x inside
    rcases List.mem_cons.mp member with rfl | member
    · rw [value] at declared
      exact noted_of_declared declared inside
    · exact rest f member e value x inside

theorem has_of_globals {gs : List Global} (ok : GlobalsOk True Γ gs Δ) : Δ.Has = Γ.Has := by
  induction ok with
  | nil => rfl
  | cons _ _ _ _ rest => exact rest

theorem own_of_globals {gs : List Global} (ok : GlobalsOk True Γ gs Δ) :
    Δ.ownFunction? = Γ.ownFunction? := by
  induction ok with
  | nil => rfl
  | cons _ _ _ _ rest => exact rest

def Stmt.Noted (has : String → Nat → Signature → Prop) (s : Stmt) : Prop :=
  ∀ e ∈ s.own, ∀ x ∈ e.parts, x.Noted has

theorem has_child (Γ : Env) : Γ.child.Has = Γ.Has := by
  funext name arity s
  rw [Env.Has, Env.findFunction?_child]
  rfl

theorem has_of_stmt {s : Stmt} (ok : StmtOk True Γ s Δ) : Δ.Has = Γ.Has := by
  cases ok <;> rfl

mutual

theorem noted_of_stmt {Γ Δ : Env} {t : Stmt} (s : Stmt) (ok : StmtOk True Γ s Δ)
    (member : t ∈ s.parts) : t.Noted Γ.Has := by
  cases s with
  | expression e =>
    obtain rfl := List.mem_singleton.mp member
    cases ok with
    | call typed =>
      intro e own x inside
      obtain rfl := List.mem_singleton.mp own
      exact noted_of_hasTy _ typed inside
  | declaration name typeName value record =>
    obtain rfl := List.mem_singleton.mp member
    cases ok with
    | declaration declared =>
      intro e own x inside
      cases value with
      | none => cases own
      | some given =>
        obtain rfl := List.mem_singleton.mp own
        exact noted_of_declared declared inside
  | assignment receiver value =>
    obtain rfl := List.mem_singleton.mp member
    intro e own x inside
    cases ok with
    | assignment typed =>
      rcases List.mem_cons.mp own with rfl | own
      · obtain rfl := List.mem_singleton.mp inside
        nofun
      · obtain rfl := List.mem_singleton.mp own
        exact noted_of_hasTy _ typed inside
    | store typed target =>
      rcases List.mem_cons.mp own with rfl | own
      · exact noted_of_hasTy _ target inside
      · obtain rfl := List.mem_singleton.mp own
        exact noted_of_hasTy _ typed inside
  | conditional c whenTrue whenFalse =>
    cases ok with
    | conditional condition _ first second =>
      rcases List.mem_cons.mp member with rfl | member
      · intro e own x inside
        obtain rfl := List.mem_singleton.mp own
        exact noted_of_hasTy _ condition inside
      · rw [← has_child]
        rcases List.mem_append.mp member with member | member
        · exact noted_of_block whenTrue first member
        · exact noted_of_block whenFalse second member
  | switch c arms =>
    cases ok with
    | switch condition all =>
      rcases List.mem_cons.mp member with rfl | member
      · intro e own x inside
        rcases List.mem_cons.mp own with rfl | own
        · exact noted_of_hasTy _ condition inside
        · exact (noted_of_cases arms all).1 e own x inside
      · exact (noted_of_cases arms all).2 t member
  | loop c body =>
    cases ok with
    | loop condition inner =>
      rcases List.mem_cons.mp member with rfl | member
      · intro e own x inside
        obtain rfl := List.mem_singleton.mp own
        exact noted_of_hasTy _ condition inside
      · rw [← has_child]
        exact noted_of_block body inner member
  | «return» value =>
    obtain rfl := List.mem_singleton.mp member
    cases ok with
    | «return» _ typed =>
      intro e own x inside
      obtain rfl := List.mem_singleton.mp own
      exact noted_of_hasTy _ typed inside

theorem noted_of_block {Γ : Env} {t : Stmt} (ss : List Stmt) (ok : BlockOk True Γ ss)
    (member : t ∈ Stmt.allParts ss) : t.Noted Γ.Has := by
  cases ss with
  | nil => cases member
  | cons s ss =>
    cases ok with
    | cons first others =>
      rcases List.mem_append.mp member with member | member
      · exact noted_of_stmt s first member
      · rw [← has_of_stmt first]
        exact noted_of_block ss others member

/-- The values of the arms and the statements in them. -/
theorem noted_of_cases {Γ : Env} {T : Ty} (arms : List Case) (ok : CasesOk True Γ T arms) :
    (∀ e ∈ arms.filterMap Case.value, ∀ x ∈ e.parts, x.Noted Γ.Has) ∧
      ∀ t ∈ Case.allParts arms, t.Noted Γ.Has := by
  match arms with
  | [] => exact ⟨nofun, nofun⟩
  | .arm none body :: others =>
    cases ok with
    | default inner =>
      refine ⟨nofun, fun t member => ?_⟩
      rcases List.mem_append.mp member with member | member
      · rw [← has_child]
        exact noted_of_block body inner member
      · cases member
  | .arm (some e) body :: others =>
    cases ok with
    | arm value inner rest =>
      obtain ⟨values, statements⟩ := noted_of_cases others rest
      constructor
      · intro d own x inside
        rcases List.mem_cons.mp own with rfl | own
        · rw [← has_child]
          exact noted_of_hasTy _ value inside
        · exact values d own x inside
      · intro t member
        rcases List.mem_append.mp member with member | member
        · rw [← has_child]
          exact noted_of_block body inner member
        · exact statements t member

end

theorem has_of_parameters {ps : List Parameter} {types : List Ty}
    (ok : ParametersOk Γ ps types Δ) : Δ.Has = Γ.Has := by
  induction ok with
  | nil => rfl
  | cons _ _ rest => exact rest

theorem noted_of_body {f : Function} {s : Signature} (ok : BodyOk True Γ f s) {t : Stmt}
    (member : t ∈ Stmt.allParts f.body) : t.Noted Γ.Has := by
  obtain ⟨Θ, parameters, body⟩ := ok.body
  have same : Θ.Has = Γ.Has := by
    rw [has_of_parameters parameters, has_child]
    rfl
  rw [← same]
  exact noted_of_block f.body body member

def Function.Declares (f : Function) (s : Signature) : Prop :=
  f.parameterTys? = some s.parameters ∧ f.returnTy? = some s.returns

instance (f : Function) (s : Signature) : Decidable (f.Declares s) :=
  inferInstanceAs (Decidable (_ ∧ _))

def Function.Answers (f : Function) (name : String) (arity : Nat) : Prop :=
  f.name = name ∧ f.arity = arity

def Function.expressions (f : Function) : List Expr :=
  ((Stmt.allParts f.body).flatMap Stmt.own).flatMap Expr.parts

theorem Function.mem_expressions {f : Function} {x : Expr} :
    x ∈ f.expressions ↔ ∃ t ∈ Stmt.allParts f.body, ∃ e ∈ t.own, x ∈ e.parts := by
  simp only [Function.expressions, List.mem_flatMap]
  constructor
  · rintro ⟨e, ⟨t, member, own⟩, inside⟩
    exact ⟨t, member, e, own, inside⟩
  · rintro ⟨t, member, e, own, inside⟩
    exact ⟨e, ⟨t, member, own⟩, inside⟩

/-- One of the functions declares this signature under this name, or none has the name and it is
known from before them. -/
def Known (Γ : Env) (fs : List Function) (name : String) (arity : Nat) (s : Signature) : Prop :=
  (∃ f ∈ fs, f.Answers name arity ∧ f.Declares s) ∨
    (∀ f ∈ fs, ¬ f.Answers name arity) ∧ Γ.Has name arity s

theorem answers_of_body {f : Function} {s : Signature} (body : BodyOk True Γ f s) {name : String}
    {arity : Nat} : f.Answers name arity ↔ name = s.name ∧ arity = s.arity := by
  have many : f.arity = s.arity := many_of_mapM body.types
  rw [Function.Answers, many, body.name]
  constructor <;> rintro ⟨rfl, rfl⟩ <;> exact ⟨rfl, rfl⟩

theorem free_of_functions {fs : List Function} (ok : FunctionsOk True Γ fs Δ) :
    ∀ f ∈ fs, Γ.ownFunction? f.name f.arity = none := by
  induction ok with
  | nil => nofun
  | @cons Γ Δ f fs s free body others rest =>
    intro g member
    rcases List.mem_cons.mp member with rfl | member
    · obtain ⟨name, arity⟩ := (answers_of_body body).mp ⟨rfl, rfl⟩
      rw [name, arity, free]
    · have later := rest g member
      rw [Env.ownFunction?_bindFunction] at later
      split at later
      · cases later
      · exact later

/-- No two functions of a program answer alike. -/
theorem same_of_answers {fs : List Function} (ok : FunctionsOk True Γ fs Δ) {f g : Function}
    (first : f ∈ fs) (second : g ∈ fs) {name : String} {arity : Nat}
    (answersF : f.Answers name arity)
    (answersG : g.Answers name arity) : f = g := by
  induction ok with
  | nil => cases first
  | @cons Γ Δ d fs s free body others rest =>
    have apart : ∀ e ∈ fs, d.Answers name arity → ¬ e.Answers name arity := by
      rintro e member answersD ⟨rfl, rfl⟩
      have later := free_of_functions others e member
      rw [Env.ownFunction?_bindFunction, if_pos ((answers_of_body body).mp answersD)] at later
      cases later
    rcases List.mem_cons.mp first with rfl | later
    · rcases List.mem_cons.mp second with rfl | after
      · rfl
      · exact absurd answersG (apart g after answersF)
    · rcases List.mem_cons.mp second with rfl | after
      · exact absurd answersF (apart f later answersG)
      · exact rest later after

/-- What is known where a function is known already is known of it or from before. -/
theorem known_cons {f : Function} {fs : List Function} {s t : Signature}
    (body : BodyOk True (Γ.bindFunction s) f s) {name : String} {arity : Nat}
    (known : Known (Γ.bindFunction s) fs name arity t) : Known Γ (f :: fs) name arity t := by
  rcases known with ⟨g, member, answers, declares⟩ | ⟨none, has⟩
  · exact .inl ⟨g, List.mem_cons_of_mem f member, answers, declares⟩
  · rw [Env.Has, Env.findFunction?_bindFunction] at has
    split at has
    · next here =>
      cases has
      exact .inl ⟨f, List.mem_cons_self, (answers_of_body body).mpr here, body.types, body.returns⟩
    · next other =>
      refine .inr ⟨fun g member => ?_, has⟩
      rcases List.mem_cons.mp member with rfl | member
      · exact fun answers => other ((answers_of_body body).mp answers)
      · exact none g member

/-- A call in the body of a function means one of the functions defined up to there, or one from
before them all. -/
theorem noted_of_functions {fs : List Function} (ok : FunctionsOk True Γ fs Δ)
    {before after : List Function} {g : Function} (split : fs = before ++ g :: after) {x : Expr}
    (member : x ∈ g.expressions) : x.Noted (Known Γ (before ++ [g])) := by
  induction ok generalizing before with
  | nil => simp at split
  | @cons Γ Δ f fs s free body others rest =>
    intro name args signature slot is
    cases before with
    | nil =>
      obtain ⟨rfl, rfl⟩ : f = g ∧ fs = after := by simpa using split
      obtain ⟨t, inside, e, own, member⟩ := Function.mem_expressions.mp member
      obtain ⟨s', noted, has⟩ :=
        noted_of_body body inside e own x member name args signature slot is
      exact ⟨s', noted, known_cons body (.inr ⟨nofun, has⟩)⟩
    | cons d before =>
      obtain ⟨rfl, later⟩ : f = d ∧ fs = before ++ g :: after := by simpa using split
      obtain ⟨s', noted, known⟩ := rest later name args signature slot is
      exact ⟨s', noted, known_cons body known⟩

end

end Plc
