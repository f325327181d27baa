import NixEvalJobs.Lib.Transition

/-!
# Simulation

A concrete system is explained by an abstract one when a relation between their
states holds initially and every concrete step can be followed by some abstract
steps, or by none. Each side keeps its own promise about the environment.

* `Simulation.reachable` — what is reachable below is related to something
  reachable above.
* `Simulation.invariant` — so invariants of the abstract system hold below.
-/

namespace NixEvalJobs

namespace System

variable {σ ε σ' ε' : Type} {T : System σ ε} {T' : System σ' ε'} {rely : σ → ε → Prop}
  {rely' : σ' → ε' → Prop} {R : σ → σ' → Prop}

/-- One step that the environment allows. -/
def Follows (T : System σ ε) (rely : σ → ε → Prop) (s s' : σ) : Prop :=
  ∃ e, rely s e ∧ T.step s e = some s'

/-- Some steps, one after the other. -/
abbrev Leads (T : System σ ε) (rely : σ → ε → Prop) : σ → σ → Prop :=
  Relation.ReflTransGen (T.Follows rely)

theorem Reachable.leads {s s' : σ} (hs : T.Reachable rely s) (h : T.Leads rely s s') :
    T.Reachable rely s' := by
  induction h with
  | refl => exact hs
  | tail _ hstep ih =>
    obtain ⟨e, hr, he⟩ := hstep
    exact ih.step hr he

theorem Leads.step {s s' : σ} {e : ε} (hr : rely s e) (he : T.step s e = some s') :
    T.Leads rely s s' :=
  .single ⟨e, hr, he⟩

/-- `T'` can follow every step of `T`, from related states to related states. -/
structure Simulation (T : System σ ε) (rely : σ → ε → Prop) (T' : System σ' ε')
    (rely' : σ' → ε' → Prop) (R : σ → σ' → Prop) : Prop where
  init : R T.init T'.init
  step : ∀ {s s' : σ} {m : σ'} {e : ε}, T.Reachable rely s → T'.Reachable rely' m → R s m →
    rely s e → T.step s e = some s' → ∃ m', T'.Leads rely' m m' ∧ R s' m'

/-- **The simulation rule.** -/
theorem Simulation.reachable (h : Simulation T rely T' rely' R) {s : σ}
    (hs : T.Reachable rely s) : ∃ m, T'.Reachable rely' m ∧ R s m := by
  induction hs with
  | init => exact ⟨_, .init, h.init⟩
  | step hs hr he ih =>
    obtain ⟨m, hm, hrel⟩ := ih
    obtain ⟨m', hleads, hrel'⟩ := h.step hs hm hrel hr he
    exact ⟨m', hm.leads hleads, hrel'⟩

/-- What holds of every abstract state, and is seen through the relation, holds below. -/
theorem Simulation.invariant (h : Simulation T rely T' rely' R) {I : σ → Prop}
    (hI : ∀ {s m}, T'.Reachable rely' m → R s m → I s) {s : σ} (hs : T.Reachable rely s) :
    I s := by
  obtain ⟨m, hm, hrel⟩ := h.reachable hs
  exact hI hm hrel

end System

end NixEvalJobs
