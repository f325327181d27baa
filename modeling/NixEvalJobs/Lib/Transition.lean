import Mathlib

/-!
# Event-driven systems

A deterministic system that consumes one event at a time. All choices of the
environment (who is scheduled, what a call returns) live in the events; an
event that is not possible in a state, or that makes the program stop with an
exception, has no successor. Restrictions on the environment ("the peer
answers correctly") are a `rely` predicate on the state and the event, so one
system serves results under different assumptions.

* `System.Reachable.invariant` — the induction every safety result uses, with
  the invariants already known available in the step.
* `System.Reachable.mono` — a stronger environment reaches fewer states.
* `System.reachable_after` — a concrete event list reaches its end state.
* `System.run_iff_along` — from an equivalence for each step to one for a run.
* `System.Trail` — runs that carry their history, for what "was earlier" the case.
* `System.Trail.countP_add_le` — how often a step that lowers a measure can be taken.
-/

namespace NixEvalJobs

/-- An event-driven system with a partial step function. -/
structure System (σ ε : Type) where
  init : σ
  step : σ → ε → Option σ

namespace System

variable {σ ε : Type} {T : System σ ε} {rely rely' : σ → ε → Prop}

/-- The states a system can reach while its environment keeps to `rely`. -/
inductive Reachable (T : System σ ε) (rely : σ → ε → Prop) : σ → Prop where
  | init : Reachable T rely T.init
  | step {s s' : σ} {e : ε} : Reachable T rely s → rely s e → T.step s e = some s' →
      Reachable T rely s'

/-- The environment that does whatever it wants. -/
def anyEnv : σ → ε → Prop := fun _ _ => True

/-- **Invariant rule.** What holds initially and is preserved by every step
from a reachable state holds in every reachable state. -/
theorem Reachable.invariant {I : σ → Prop} (h₀ : I T.init)
    (hStep : ∀ {s s' e}, T.Reachable rely s → I s → rely s e → T.step s e = some s' →
      I s')
    {s : σ} (h : T.Reachable rely s) : I s := by
  induction h with
  | init => exact h₀
  | step hs hr he ih => exact hStep hs ih hr he

theorem Reachable.mono (hle : ∀ s e, rely s e → rely' s e) {s : σ}
    (h : T.Reachable rely s) : T.Reachable rely' s := by
  induction h with
  | init => exact .init
  | step _ hr he ih => exact .step ih (hle _ _ hr) he

/-! ## Concrete runs -/

variable {check : σ → ε → Bool}

/-- Runs a list of events, as long as `check` accepts them. -/
def run (T : System σ ε) (check : σ → ε → Bool) (s : σ) (es : List ε) : Option σ :=
  es.foldlM (fun s e => if check s e then T.step s e else none) s

/-- Accepts every event. -/
def anyCheck : σ → ε → Bool := fun _ _ => true

/-- A run whose events, once checked, are what the environment promises. -/
theorem Reachable.run_checked {s s' : σ} {es : List ε}
    (hcheck : ∀ e ∈ es, ∀ s, check s e = true → rely s e) (hs : T.Reachable rely s)
    (h : T.run check s es = some s') : T.Reachable rely s' := by
  induction es generalizing s with
  | nil => exact Option.some.inj h ▸ hs
  | cons e es ih =>
    obtain ⟨m, hm, hrest⟩ := Option.bind_eq_some_iff.mp h
    beta_reduce at hm
    split at hm
    · next hc =>
      have hstep := hs.step (hcheck e (List.mem_cons_self ..) s hc) hm
      exact ih (fun e' he' => hcheck e' (List.mem_cons_of_mem _ he')) hstep hrest
    · cases hm

theorem Reachable.run {s s' : σ} {es : List ε} (hcheck : ∀ s e, check s e = true → rely s e)
    (hs : T.Reachable rely s) (h : T.run check s es = some s') : T.Reachable rely s' :=
  hs.run_checked (fun e _ s => hcheck s e) h

/-- A run whose events are all that the environment promises. -/
theorem Reachable.run_all {s s' : σ} {es : List ε} (hrely : ∀ e ∈ es, ∀ s, rely s e)
    (hs : T.Reachable rely s) (h : T.run anyCheck s es = some s') : T.Reachable rely s' :=
  hs.run_checked (fun e he s _ => hrely e he s) h

/-- The end state of a concrete run. -/
def after (T : System σ ε) (check : σ → ε → Bool) (es : List ε)
    (h : (T.run check T.init es).isSome = true) : σ :=
  (T.run check T.init es).get h

theorem reachable_after (hcheck : ∀ s e, check s e = true → rely s e) (es : List ε)
    (h : (T.run check T.init es).isSome = true) : T.Reachable rely (T.after check es h) :=
  Reachable.run hcheck .init (Option.some_get h).symm

/-- What is evaluated together with a concrete run holds of its end state. -/
theorem after_of_any {p : σ → Bool} {es : List ε} (h : (T.run check T.init es).any p = true)
    (hsome : (T.run check T.init es).isSome = true) : p (T.after check es hsome) = true :=
  Option.get_of_any_eq_true p _ h

/-- `P` holds at every step of a run. -/
def Along (T : System σ ε) (P : σ → ε → Prop) : σ → List ε → Prop
  | _, [] => True
  | s, e :: es => P s e ∧ ∀ m, T.step s e = some m → Along T P m es

/-- What holds at every step still holds when less is asked of a step. -/
theorem Along.mono {P Q : σ → ε → Prop} (hle : ∀ s e, P s e → Q s e) {s : σ} {es : List ε}
    (h : T.Along P s es) : T.Along Q s es := by
  induction es generalizing s with
  | nil => trivial
  | cons e es ih => exact ⟨hle s e h.1, fun m hm => ih (h.2 m hm)⟩

/-- A run can be checked step by step. -/
instance Along.decidable {P : σ → ε → Prop} [∀ s e, Decidable (P s e)] :
    (s : σ) → (es : List ε) → Decidable (T.Along P s es)
  | _, [] => inferInstanceAs (Decidable True)
  | s, e :: es =>
    match hstep : T.step s e with
    | none => decidable_of_iff (P s e)
        ⟨fun hp => ⟨hp, fun _ hm => by cases hstep.symm.trans hm⟩, fun h => h.1⟩
    | some m =>
      have : Decidable (T.Along P m es) := Along.decidable m es
      decidable_of_iff (P s e ∧ T.Along P m es)
        ⟨fun h => ⟨h.1, fun _ hm => Option.some.inj (hstep.symm.trans hm) ▸ h.2⟩,
          fun h => ⟨h.1, h.2 m hstep⟩⟩

/-- What a step preserves exactly when `P` holds at it, a run preserves exactly
when `P` holds along it. -/
theorem run_iff_along {G : σ → Prop} {P : σ → ε → Prop}
    (hStep : ∀ {s s' e}, T.step s e = some s' → (G s' ↔ G s ∧ P s e)) {s s' : σ}
    {es : List ε} (h : T.run check s es = some s') : G s' ↔ G s ∧ T.Along P s es := by
  induction es generalizing s with
  | nil =>
    obtain rfl := Option.some.inj h
    exact ⟨fun hg => ⟨hg, trivial⟩, fun hg => hg.1⟩
  | cons e es ih =>
    obtain ⟨m, hm, hrest⟩ := Option.bind_eq_some_iff.mp h
    beta_reduce at hm
    split at hm
    · rw [ih hrest, hStep hm]
      constructor
      · rintro ⟨⟨hg, hp⟩, halong⟩
        refine ⟨hg, hp, fun m' hm' => ?_⟩
        rwa [Option.some.inj (hm'.symm.trans hm)]
      · rintro ⟨hg, hp, halong⟩
        exact ⟨⟨hg, hp⟩, halong m hm⟩
    · cases hm

/-- The system from another state on. -/
def startingAt (T : System σ ε) (s : σ) : System σ ε := { T with init := s }

/-! ## Runs with their history -/

/-- The states of a run together with what was done in them, newest first. -/
inductive Trail (T : System σ ε) (rely : σ → ε → Prop) : List (σ × ε) → σ → Prop where
  | init : Trail T rely [] T.init
  | step {h : List (σ × ε)} {s s' : σ} {e : ε} : Trail T rely h s → rely s e →
      T.step s e = some s' → Trail T rely ((s, e) :: h) s'

theorem Trail.reachable {h : List (σ × ε)} {s : σ} (ht : T.Trail rely h s) :
    T.Reachable rely s := by
  induction ht with
  | init => exact .init
  | step _ hr he ih => exact .step ih hr he

theorem Trail.mono (hle : ∀ s e, rely s e → rely' s e) {h : List (σ × ε)} {s : σ}
    (ht : T.Trail rely h s) : T.Trail rely' h s := by
  induction ht with
  | init => exact .init
  | step _ hr he ih => exact .step ih (hle _ _ hr) he

/-- A run goes on from where another one ended. -/
theorem Trail.reachable_from {s₀ s : σ} {h : List (σ × ε)} (hs₀ : T.Reachable rely s₀)
    (ht : (T.startingAt s₀).Trail rely h s) : T.Reachable rely s := by
  induction ht with
  | init => exact hs₀
  | step _ hr he ih => exact .step ih hr he

/-- Every reachable state has a history. -/
theorem Reachable.trail {s : σ} (hs : T.Reachable rely s) : ∃ h, T.Trail rely h s := by
  induction hs with
  | init => exact ⟨[], .init⟩
  | step _ hr he ih =>
    obtain ⟨h, ht⟩ := ih
    exact ⟨_, .step ht hr he⟩

/-- Whatever has been done was promised. -/
theorem Trail.rely_of_mem {h : List (σ × ε)} {s : σ} (ht : T.Trail rely h s) :
    ∀ x ∈ h, rely x.1 x.2 := by
  induction ht with
  | init => exact fun _ hx => absurd hx List.not_mem_nil
  | step _ hr _ ih => exact List.forall_mem_cons.mpr ⟨hr, ih⟩

/-- The invariant rule for what relates a state to its history. -/
theorem Trail.invariant {I : List (σ × ε) → σ → Prop} (h₀ : I [] T.init)
    (hStep : ∀ {h s s' e}, T.Trail rely h s → I h s → rely s e → T.step s e = some s' →
      I ((s, e) :: h) s')
    {h : List (σ × ε)} {s : σ} (ht : T.Trail rely h s) : I h s := by
  induction ht with
  | init => exact h₀
  | step ht hr he ih => exact hStep ht ih hr he

/-- **Ranking rule.** A measure that no step raises, and that every step counted by `p`
lowers, bounds how often such a step is taken. -/
theorem Trail.countP_add_le {p : σ × ε → Bool} {μ : σ → Nat}
    (hStep : ∀ {s s' e}, T.Reachable rely s → rely s e → T.step s e = some s' →
      (p (s, e)).toNat + μ s' ≤ μ s)
    {h : List (σ × ε)} {s : σ} (ht : T.Trail rely h s) : h.countP p + μ s ≤ μ T.init := by
  induction ht with
  | init => exact (Nat.zero_add _).le
  | @step h s s' e ht hr he ih =>
    have hle := hStep ht.reachable hr he
    have hcount : ((s, e) :: h).countP p = h.countP p + (p (s, e)).toNat := by
      rw [List.countP_cons]
      cases p (s, e) <;> rfl
    omega

/-- A concrete run with its history. -/
def trailOf (T : System σ ε) (es : List ε) : Option (List (σ × ε) × σ) :=
  es.foldlM (fun x e => (T.step x.2 e).map fun s' => ((x.2, e) :: x.1, s')) ([], T.init)

theorem trail_of_trailOf {es : List ε} (hrely : ∀ e ∈ es, ∀ s, rely s e) {h : List (σ × ε)}
    {s : σ} (hrun : T.trailOf es = some (h, s)) : T.Trail rely h s := by
  have hextend : ∀ {h₀ s₀}, T.Trail rely h₀ s₀ → es.foldlM
      (fun x e => (T.step x.2 e).map fun s' => ((x.2, e) :: x.1, s')) (h₀, s₀) = some (h, s) →
      T.Trail rely h s := by
    clear hrun
    induction es with
    | nil =>
      intro h₀ s₀ ht hrun
      obtain ⟨rfl, rfl⟩ := Prod.mk.inj (Option.some.inj hrun)
      exact ht
    | cons e es ih =>
      intro h₀ s₀ ht hrun
      obtain ⟨m, hm, hrest⟩ := Option.bind_eq_some_iff.mp hrun
      obtain ⟨s', hstep, rfl⟩ := Option.map_eq_some_iff.mp hm
      exact ih (fun e' he' => hrely e' (List.mem_cons_of_mem _ he'))
        (ht.step (hrely e (List.mem_cons_self ..) s₀) hstep) hrest
  exact hextend .init hrun

end System

end NixEvalJobs
