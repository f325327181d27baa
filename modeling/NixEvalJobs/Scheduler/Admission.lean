import NixEvalJobs.Scheduler.Pool

/-!
# Scheduler — memory admission

A job is to be dispatched only while every running job plus the new one can
still grow by `estimate` within the budget (the class comment, the README and
`fitsBudget` of the Quint model). The history keeps for every job taken from
`todo` whether that held.

`fitsBudget` counts the workers in phase `Busy`. A worker that was SIGKILLed for
exceeding the budget is in phase `Killed` until its end-of-file is handled, and
`running` counts it. `sampleMemory` kills after `poll` has returned, so the next
pass always runs with the worker still there; an idle worker then gets a job as
if the budget were free.

* `admission_iff` — all jobs of a run were admitted exactly when no turn of it
  overlooked a killed worker.
* `admission_of_patient` — so it is enough that no idle slot has its turn while
  a killed worker is awaited, or that there is room next to that worker.
* `overlookRun` — a run in which an idle slot does not wait.
-/

namespace NixEvalJobs

/-- A job taken from `todo` was admitted by the guard of the class comment. -/
def Effect.admitted {n : Nat} : Effect n → Bool
  | .handedOut _ _ (.todo admitted) _ => admitted
  | _ => true

namespace Scheduler

variable {n : Nat} {X : Externals} {nrWorkers maxMemorySize : UInt64} {resolver : Bool}

def AllAdmitted (trace : List (Effect n)) : Prop := ∀ e ∈ trace, e.admitted = true

instance (trace : List (Effect n)) : Decidable (AllAdmitted trace) :=
  inferInstanceAs (Decidable (∀ e ∈ trace, e.admitted = true))

/-- An idle slot is about to get a job from `todo` on the count of busy workers
alone, while a killed one is still there and counting it leaves no room. -/
structure Overlooks (s : Scheduler n) (i : Fin n) (own : UInt64) : Prop where
  idle : (s.workers i).phase = .idle
  parallel : s.mode = .parallel
  drained : s.solo = []
  work : s.todo ≠ ∅
  fits : s.fitsBudget own = true
  pending : ∃ j, (s.workers j).phase = .killed
  full : s.hasRoom own s.running = false

/-- No turn overlooks a killed worker. -/
def Careful : Config n → Event n → Prop
  | ⟨s, some pass⟩, .slot env => ∀ h : pass.idx < n, ¬ s.Overlooks ⟨pass.idx, h⟩ env.own
  | _, _ => True

theorem allAdmitted_cons {e : Effect n} {trace : List (Effect n)} :
    AllAdmitted (e :: trace) ↔ e.admitted = true ∧ AllAdmitted trace :=
  List.forall_mem_cons

/-! ## One turn -/

/-- Without killed workers the two counts are the same. -/
theorem count_busy_eq_running {s : Scheduler n} (h : ∀ j, (s.workers j).phase ≠ .killed) :
    s.count .busy = s.running := by
  refine countSlots_congr_pred fun j => ?_
  simp [Worker.running, h j]

/-- When `fitsBudget` accepts, the guard fails exactly because of killed workers. -/
theorem admits_eq_false_iff {s : Scheduler n} {own : UInt64} (hfits : s.fitsBudget own = true) :
    s.admits own = false ↔
      (∃ j, (s.workers j).phase = .killed) ∧ s.hasRoom own s.running = false := by
  rw [admits, decide_eq_false_iff_not, not_or, Bool.not_eq_true]
  constructor
  · rintro ⟨hrunning, hfull⟩
    refine ⟨?_, hfull⟩
    by_contra hnone
    rw [not_exists] at hnone
    rw [fitsBudget, decide_eq_true_eq, count_busy_eq_running hnone] at hfits
    rcases hfits with hzero | hroom
    · exact hrunning hzero
    · rw [hfull] at hroom
      cases hroom
  · rintro ⟨⟨j, hj⟩, hfull⟩
    refine ⟨fun hzero => ?_, hfull⟩
    have := running_eq_zero.mp hzero j
    simp [Worker.running, hj] at this

/-- A job from `todo` counts as admitted unless its turn overlooks a killed worker. -/
theorem takeJob_admitted {s m : Scheduler n} {i : Fin n} {own : UInt64} {path : AttrPath}
    {source : Source} (mode : Mode) (hidle : (s.workers i).phase = .idle)
    (h : s.takeJob i own = .ok (some (path, source), m)) :
    (Effect.handedOut i path source mode).admitted = true ↔ ¬ s.Overlooks i own := by
  rcases takeJob_cases h with ⟨hnone, -⟩ | ⟨p, hjob, -, hmode, -, -⟩ |
    ⟨p, hjob, hmode, hsolo, hfits, hfirst, -⟩
  · cases hnone
  · cases hjob
    refine iff_of_true rfl fun ho => ?_
    exact absurd (ho.parallel.symm.trans hmode) (by decide)
  · cases hjob
    have hwork : s.todo ≠ ∅ := by
      intro hempty
      have := StdSet.mem_of_first hfirst
      rw [hempty] at this
      exact Std.ExtTreeSet.not_mem_empty this
    have hover : s.Overlooks i own ↔ s.admits own = false := by
      rw [admits_eq_false_iff hfits]
      exact ⟨fun ho => ⟨ho.pending, ho.full⟩, fun hf =>
        ⟨hidle, hmode, hsolo, hwork, hfits, hf.1, hf.2⟩⟩
    rw [hover, Bool.not_eq_false]
    rfl

/-- A slot that overlooks a killed worker gets a job. -/
theorem Overlooks.takeJob_ne {s : Scheduler n} {i : Fin n} {own : UInt64}
    (h : s.Overlooks i own) : s.takeJob i own ≠ .ok (none, s) := by
  rw [takeJob, if_neg, if_neg, if_pos ⟨h.drained, h.fits⟩]
  · cases hfirst : StdSet.first s.todo with
    | some path =>
      intro hc
      cases hc
    | none =>
      exact absurd (Std.ExtTreeSet.isEmpty_iff.mp (StdSet.first_eq_none.mp hfirst)) h.work
  · rw [h.parallel]
    decide
  · rintro ⟨-, hmode | hsolo⟩
    · exact absurd (h.parallel.symm.trans hmode) (by decide)
    · exact hsolo h.drained

/-- Outside the turns of a pass no job is handed out. -/
theorem allAdmitted_move {ok : AttrPath → Response → Json → Prop} {s s' : Scheduler n}
    {p : Option Nat} (hm : Move X ok ⟨s, none⟩ ⟨s', p⟩) :
    AllAdmitted s'.trace ↔ AllAdmitted s.trace := by
  have hcons : ∀ {e : Effect n}, e.admitted = true →
      (AllAdmitted (e :: s.trace) ↔ AllAdmitted s.trace) := fun he => by
    rw [allAdmitted_cons, he]
    exact ⟨fun h => h.2, fun h => ⟨rfl, h⟩⟩
  cases hm with
  | finish _ _ haccept =>
    rw [← (acceptResponse_frame haccept).2.1] at hcons ⊢
    exact hcons rfl
  | enterSolo | requeue | giveUp | evict => exact hcons rfl
  | beginPass | started | restarted | exited | lost | sample => exact Iff.rfl

/-- A turn hands out a job that is not admitted exactly when it overlooks. -/
theorem allAdmitted_turn {s s' : Scheduler n} {k k' : Nat} {i : Fin n} {env : SlotEnv}
    (h : Turn X s k i env k' s') :
    AllAdmitted s'.trace ↔ AllAdmitted s.trace ∧ ¬ s.Overlooks i env.own := by
  -- a turn that overlooks nothing leaves the question to the history
  have hcareful : ∀ {trace : List (Effect n)}, ¬ s.Overlooks i env.own →
      (AllAdmitted trace ↔ AllAdmitted trace ∧ ¬ s.Overlooks i env.own) := fun ho =>
    ⟨fun h => ⟨h, ho⟩, fun h => h.1⟩
  -- a job is admitted when the guard over all running workers would have let it in
  have htake : ∀ {path source m}, (s.workers i).phase = .idle →
      s.takeJob i env.own = .ok (some (path, source), m) →
      (AllAdmitted (m.handOut i path source).trace ↔
        AllAdmitted s.trace ∧ ¬ s.Overlooks i env.own) := by
    intro path source m hidle hjob
    have htrace : m.trace = s.trace := by
      rcases takeJob_cases hjob with ⟨hnone, -⟩ | ⟨p, -, -, -, -, rfl⟩ | ⟨p, -, -, -, -, -, rfl⟩
      · cases hnone
      · rfl
      · rfl
    rw [← takeJob_admitted m.mode hidle hjob, ← htrace, and_comm]
    exact allAdmitted_cons
  cases h with
  | skip hskip => exact hcareful fun ho => ho.takeJob_ne (hskip.take ho.idle)
  | exit _ hfinished =>
    have ho : ¬ s.Overlooks i env.own := fun ho => ho.work (finished_iff.mp hfinished).1
    refine Iff.trans ?_ (hcareful ho)
    exact ⟨fun h => (allAdmitted_cons.mp h).2, fun h => allAdmitted_cons.mpr ⟨rfl, h⟩⟩
  | sent hidle hjob _ => exact htake hidle hjob
  | unsent hidle _ hjob heof =>
    have hmove : Move X (fun _ _ _ => True) ⟨_, none⟩ ⟨s', none⟩ := onEof_move heof
    exact (allAdmitted_move hmove).trans (htake hidle hjob)
  | spawn hnone =>
    have ho : ¬ s.Overlooks i env.own := fun ho => by
      rw [ho.idle] at hnone
      cases hnone
    refine Iff.trans ?_ (hcareful ho)
    exact ⟨fun h => (allAdmitted_cons.mp h).2, fun h => allAdmitted_cons.mpr ⟨rfl, h⟩⟩

/-! ## Runs -/

theorem allAdmitted_step {c c' : Config n} {e : Event n} (h : step X c e = some c') :
    AllAdmitted c'.sched.trace ↔ AllAdmitted c.sched.trace ∧ Careful c e := by
  have htrivial : ∀ {trace : List (Effect n)}, (AllAdmitted trace ↔ AllAdmitted trace ∧ True) :=
    (and_iff_left trivial).symm
  -- only a turn of a pass can overlook a killed worker
  cases step_steps h with
  | began _ =>
    refine Iff.trans ?_ htrivial
    rw [beginDispatch]
    split
    · exact ⟨fun h => (allAdmitted_cons.mp h).2, fun h => allAdmitted_cons.mpr ⟨rfl, h⟩⟩
    · exact Iff.rfl
  | turned hlt hslot =>
    refine (allAdmitted_turn (dispatchSlot_turn hslot)).trans ?_
    exact and_congr_right fun _ => ⟨fun ho _ => ho, fun ho => ho hlt⟩
  | ended _ => exact htrivial
  | sampled hs' =>
    refine Iff.trans ?_ htrivial
    rcases sampleMemory_cases hs' with rfl | ⟨v, -, -, rfl⟩
    · exact Iff.rfl
    · exact ⟨fun h => (allAdmitted_cons.mp h).2, fun h => allAdmitted_cons.mpr ⟨rfl, h⟩⟩
  | @read s s' _ _ _ _ hs' =>
    refine Iff.trans ?_ htrivial
    have hmove : s' = s ∨ Move X (fun _ _ _ => True) ⟨s, none⟩ ⟨s', none⟩ :=
      onLine_move (fun _ _ _ _ _ _ => trivial) hs'
    rcases hmove with rfl | hmove
    · exact Iff.rfl
    · exact allAdmitted_move hmove
  | @hungUp s s' _ _ _ hs' =>
    have hmove : Move X (fun _ _ _ => True) ⟨s, none⟩ ⟨s', none⟩ := onEof_move hs'
    exact (allAdmitted_move hmove).trans htrivial

/-- **Memory admission.** In a run every job taken from `todo` was admitted by the
guard over all running workers, exactly when no turn of a pass overlooked a
killed worker. -/
theorem admission_iff {es : List (Event n)} {c : Config n}
    (h : (system X nrWorkers maxMemorySize resolver).run System.anyCheck
      (system X nrWorkers maxMemorySize resolver).init es = some c) :
    AllAdmitted c.sched.trace ↔
      (system X nrWorkers maxMemorySize resolver).Along Careful
        (system X nrWorkers maxMemorySize resolver).init es := by
  rw [System.run_iff_along (G := fun c => AllAdmitted c.sched.trace) (P := Careful)
    allAdmitted_step h]
  exact and_iff_right fun e he => by cases he

/-! ## Waiting for killed workers -/

/-- The turn of an idle slot, in Parallel mode and with work left, while a killed
worker still has to be awaited and the budget has no room for a job next to it. -/
structure Hurries (s : Scheduler n) (i : Fin n) (own : UInt64) : Prop where
  idle : (s.workers i).phase = .idle
  parallel : s.mode = .parallel
  work : s.todo.isEmpty = false
  pending : ∃ j, (s.workers j).phase = .killed
  full : s.hasRoom own s.running = false

/-- No pass comes to an idle slot too early. -/
def Patient : Config n → Event n → Prop
  | ⟨s, some pass⟩, .slot env => ∀ h : pass.idx < n, ¬ s.Hurries ⟨pass.idx, h⟩ env.own
  | _, _ => True

instance (s : Scheduler n) (i : Fin n) (own : UInt64) : Decidable (s.Hurries i own) :=
  decidable_of_iff ((s.workers i).phase = .idle ∧ s.mode = .parallel ∧ s.todo.isEmpty = false ∧
      (∃ j, (s.workers j).phase = .killed) ∧ s.hasRoom own s.running = false)
    ⟨fun ⟨h₁, h₂, h₃, h₄, h₅⟩ => ⟨h₁, h₂, h₃, h₄, h₅⟩, fun ⟨h₁, h₂, h₃, h₄, h₅⟩ =>
      ⟨h₁, h₂, h₃, h₄, h₅⟩⟩

instance : (c : Config n) → (e : Event n) → Decidable (Patient c e)
  | ⟨s, some pass⟩, .slot env =>
    inferInstanceAs (Decidable (∀ h : pass.idx < n, ¬ s.Hurries ⟨pass.idx, h⟩ env.own))
  | ⟨_, none⟩, _ => .isTrue trivial
  | ⟨_, some _⟩, .beginDispatch | ⟨_, some _⟩, .endDispatch | ⟨_, some _⟩, .sample _ _
  | ⟨_, some _⟩, .line _ _ _ | ⟨_, some _⟩, .eof _ _ => .isTrue trivial

/-- Whoever overlooks a killed worker has not waited for it. -/
theorem Overlooks.hurries {s : Scheduler n} {i : Fin n} {own : UInt64} (h : s.Overlooks i own) :
    s.Hurries i own where
  idle := h.idle
  parallel := h.parallel
  work := by
    rw [Bool.eq_false_iff]
    exact fun hempty => h.work (Std.ExtTreeSet.isEmpty_iff.mp hempty)
  pending := h.pending
  full := h.full

theorem Patient.careful {c : Config n} {e : Event n} (h : Patient c e) : Careful c e := by
  match c, e with
  | ⟨s, some pass⟩, .slot env => exact fun hlt ho => h hlt ho.hurries
  | ⟨_, none⟩, _ => trivial
  | ⟨_, some _⟩, .beginDispatch | ⟨_, some _⟩, .endDispatch | ⟨_, some _⟩, .sample _ _
  | ⟨_, some _⟩, .line _ _ _ | ⟨_, some _⟩, .eof _ _ => trivial

/-- **Memory admission.** In a run whose passes come to no idle slot while a killed
worker is awaited, unless there is room next to that worker, every job taken from
`todo` was admitted by the guard over all running workers. -/
theorem admission_of_patient {es : List (Event n)} {c : Config n}
    (h : (system X nrWorkers maxMemorySize resolver).run System.anyCheck
      (system X nrWorkers maxMemorySize resolver).init es = some c)
    (hpatient : (system X nrWorkers maxMemorySize resolver).Along Patient
      (system X nrWorkers maxMemorySize resolver).init es) :
    AllAdmitted c.sched.trace :=
  (admission_iff h).mpr (hpatient.mono fun _ _ hp => hp.careful)

/-- A first worker of 1300 MiB gets the job `a`, and `b` has to wait until the first
worker is killed at 1850 MiB. When its memory is free there is room for `b`, though its
end-of-file is still to come. -/
def waitRun : List (Event 2) :=
  [Event.beginDispatch, .slot { rss := 1300 }, .slot {}, .endDispatch, .line 0 msgNext 1300] ++
    Event.calmPass 2 ++
    [Event.line 0 (rootJson.plainDump.getD []) 1300, .line 0 msgNext 1300] ++ Event.calmPass 2 ++
    [Event.sample 100 ![1300, 100], .line 1 msgNext 100] ++
    [Event.beginDispatch, .slot { own := 100 }, .slot { own := 100 }, .endDispatch,
      .sample 100 ![1850, 100], .sample 100 ![0, 100]] ++ Event.calmPass 2

theorem waitRun_isSome :
    ((system (Externals.plain [rootJson]) 2 1000 false).run System.anyCheck
      (system (Externals.plain [rootJson]) 2 1000 false).init waitRun).isSome = true := by
  decide +kernel

theorem admission_of_patient_waitRun :
    let c := (system (Externals.plain [rootJson]) 2 1000 false).after System.anyCheck waitRun
      waitRun_isSome
    (c.sched.workers 0).phase = .killed ∧ (c.sched.workers 1).holds [lit "b"] = true ∧
      AllAdmitted c.sched.trace := by
  refine ⟨by decide +kernel, by decide +kernel, ?_⟩
  exact admission_of_patient (Option.some_get waitRun_isSome).symm (by decide +kernel)

/-- With a budget of 2000 MiB the second worker has to wait while the first one
grows, until the first one is killed for exceeding the budget. -/
def evictRun : List (Event 2) :=
  Event.rootRun ++ [Event.sample 100 ![1500, 100], .line 1 msgNext 100] ++ Event.calmPass 2 ++
    [Event.sample 100 ![2200, 100]]

/-- In the next pass the second worker gets a job. -/
def overlookRun : List (Event 2) := evictRun ++ Event.calmPass 2

theorem overlookRun_isSome :
    ((system (Externals.plain [rootJson]) 2 1000 false).run System.anyCheck
      (system (Externals.plain [rootJson]) 2 1000 false).init overlookRun).isSome = true := by
  decide +kernel

/-- The job `b` is taken from `todo` while the first worker still holds 2200 MiB
of the 2000. -/
theorem not_allAdmitted_overlookRun :
    let c := (system (Externals.plain [rootJson]) 2 1000 false).after System.anyCheck overlookRun
      overlookRun_isSome
    (c.sched.workers 0).phase = .killed ∧ (c.sched.workers 1).holds [lit "b"] = true ∧
      ¬ AllAdmitted c.sched.trace := by
  refine ⟨?_, ?_, ?_⟩ <;> decide +kernel

end Scheduler

end NixEvalJobs
