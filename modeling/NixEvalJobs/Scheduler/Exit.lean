import NixEvalJobs.Scheduler.Pool

/-!
# Scheduler — exit safety

A worker is told to exit when everything is done. `finished` is evaluated again and
again inside the loop of `dispatch`, while lines and end-of-files of other workers
keep arriving; that it stays true once it is, is `exitingOnlyWhenFinished` of
`spec/scheduler.qnt`.

* `finished_move` — nothing is queued or run again, and no worker is spawned.
* `exit_safety` — the same for runs, with the history.
-/

namespace NixEvalJobs

namespace Scheduler

variable {n : Nat} {X : Externals} {ok : AttrPath → Response → Json → Prop}
  {nrWorkers maxMemorySize : UInt64} {resolver : Bool}

/-- Once a worker was told to exit, this is all that happens. -/
def OnlyExits (trace : List (Effect n)) : Prop :=
  ∀ newer older i, trace = newer ++ .toldExit i :: older → ∀ e ∈ newer, ∃ j, e = .toldExit j

/-- Workers are told to exit, and exit, in finished states only. -/
structure ExitsFinished (s : Scheduler n) : Prop where
  phase : ∀ i, (s.workers i).phase = .exiting → s.finished = true
  told : ∀ i, .toldExit i ∈ s.trace → s.finished = true
  /-- Nothing but further exits comes after the first. -/
  only : OnlyExits s.trace

/-! ## Moves -/

/-- What is queued and how many slots run decides. -/
theorem finished_congr {s s' : Scheduler n} (h : s.finished = true) (htodo : s'.todo = s.todo)
    (hsolo : s'.solo = s.solo) (hrunning : ∀ i, (s'.workers i).running = (s.workers i).running) :
    s'.finished = true := by
  obtain ⟨ht, hs, hr⟩ := finished_iff.mp h
  refine finished_iff.mpr ⟨htodo.trans ht, hsolo.trans hs, ?_⟩
  exact (countSlots_congr hrunning).trans hr

/-- A slot that runs neither before nor after does not count. -/
theorem finished_update {s s' : Scheduler n} {i : Fin n} {w : Worker} (h : s.finished = true)
    (htodo : s'.todo = s.todo) (hsolo : s'.solo = s.solo)
    (hworkers : s'.workers = Function.update s.workers i w) (hw : w.running = false) :
    s'.finished = true := by
  refine finished_congr h htodo hsolo fun j => ?_
  have hi : (s.workers i).running = false :=
    running_eq_zero.mp (finished_iff.mp h).2.2 i
  rw [hworkers]
  exact apply_update_of_eq Worker.running (hw.trans hi.symm) j

/-- **A finished scheduler stays finished**, and all it still does is to tell its
workers to exit. -/
theorem finished_move {a b : Snapshot n} (hm : Move X ok a b) (h : a.sched.finished = true) :
    b.sched.finished = true ∧
      (b.sched.trace = a.sched.trace ∨ ∃ i, b.sched.trace = .toldExit i :: a.sched.trace) := by
  obtain ⟨htodo, hsolo, hrunning⟩ := finished_iff.mp h
  have hidle : ∀ i, (a.sched.workers i).running = false := running_eq_zero.mp hrunning
  -- a move that starts or ends a job needs one; the others leave the queues empty
  cases hm with
  | enterSolo _ hne => exact absurd hsolo hne
  | beginPass | endPass => exact ⟨h, .inl rfl⟩
  | @sendExit s k i => exact ⟨finished_update (i := i) h rfl rfl rfl rfl, .inr ⟨i, rfl⟩⟩
  | takeSolo _ _ _ hlast =>
    rw [hsolo] at hlast
    cases hlast
  | takeTodo _ _ _ _ hfirst =>
    have hmem := StdSet.mem_of_first hfirst
    rw [htodo] at hmem
    exact absurd hmem Std.ExtTreeSet.not_mem_empty
  | spawn _ hwork => exact absurd (h.symm.trans hwork) (by decide)
  | @started s i => exact ⟨finished_update (i := i) h rfl rfl rfl rfl, .inl rfl⟩
  | @restarted s i => exact ⟨finished_update (i := i) h rfl rfl rfl rfl, .inl rfl⟩
  | @exited s p i => exact ⟨finished_update (i := i) h rfl rfl rfl rfl, .inl rfl⟩
  | @lost s p i => exact ⟨finished_update (i := i) h rfl rfl rfl rfl, .inl rfl⟩
  | @finish s m i _ _ _ _ hbusy =>
    exact absurd ((hidle i).symm.trans (Worker.running_iff.mpr (.inl hbusy))) (by decide)
  | @requeue s p i _ hholds =>
    exact absurd ((hidle i).symm.trans (Worker.running_iff.mpr (Worker.holds_iff.mp hholds).1))
      (by decide)
  | @giveUp s p i _ _ hholds =>
    exact absurd ((hidle i).symm.trans (Worker.running_iff.mpr (Worker.holds_iff.mp hholds).1))
      (by decide)
  | sample => exact ⟨finished_congr h rfl rfl fun _ => rfl, .inl rfl⟩
  | @evict s i hbusy =>
    exact absurd ((hidle i).symm.trans (Worker.running_iff.mpr (.inl hbusy))) (by decide)

/-- The slot that was assigned is not exiting, so any exiting slot was so before. -/
theorem exiting_of_update {s : Scheduler n} {v : Fin n} {w : Worker} (hw : w.phase ≠ .exiting)
    (i : Fin n) (h : (Function.update s.workers v w i).phase = .exiting) :
    (s.workers i).phase = .exiting := by
  by_cases hi : i = v
  · subst hi
    rw [Function.update_self] at h
    exact absurd h hw
  · rwa [Function.update_of_ne hi] at h

/-- In a state that is not finished no worker is told to exit. -/
theorem exiting_move {a b : Snapshot n} (hm : Move X ok a b) (h : a.sched.finished = false) :
    (∀ i, (b.sched.workers i).phase = .exiting → (a.sched.workers i).phase = .exiting) ∧
      ∀ i, .toldExit i ∈ b.sched.trace → .toldExit i ∈ a.sched.trace := by
  -- a recorded effect that is no exit adds none
  have hcons : ∀ {e : Effect n} {trace : List (Effect n)}, (∀ i, e ≠ .toldExit i) →
      ∀ i, .toldExit i ∈ e :: trace → .toldExit i ∈ trace := fun he i hmem =>
    (List.mem_cons.mp hmem).resolve_left fun hc => he i hc.symm
  -- only `sendExit` tells a worker to exit, and only when finished
  cases hm with
  | enterSolo =>
    refine ⟨fun i hi => ?_, hcons fun _ hc => by cases hc⟩
    cases hi
  | beginPass | endPass | sample => exact ⟨fun _ hi => hi, fun _ he => he⟩
  | sendExit _ hfinished => exact absurd (h.symm.trans hfinished) (by decide)
  | @takeSolo s k i path =>
    refine ⟨fun j hj => ?_, hcons fun _ hc => by cases hc⟩
    rw [handOut_startJob_workers] at hj
    exact exiting_of_update (s := s) (fun hc => by cases hc) j hj
  | @takeTodo s k i path =>
    refine ⟨fun j hj => ?_, hcons fun _ hc => by cases hc⟩
    rw [handOut_startJob_workers] at hj
    exact exiting_of_update (s := s) (fun hc => by cases hc) j hj
  | spawn | evict | requeue | giveUp =>
    exact ⟨exiting_of_update (fun hc => by cases hc), hcons fun _ hc => by cases hc⟩
  | started | restarted | exited | lost =>
    exact ⟨exiting_of_update (fun hc => by cases hc), fun _ he => he⟩
  | finish _ _ haccept =>
    obtain ⟨hworkers, htrace, -⟩ := acceptResponse_frame haccept
    refine ⟨fun j hj => ?_, ?_⟩
    · rw [← hworkers]
      exact exiting_of_update (fun hc => by cases hc) j hj
    · rw [← htrace]
      exact hcons fun _ hc => by cases hc

/-- One more entry of the history, at the newer end. -/
theorem OnlyExits.cons {e : Effect n} {trace : List (Effect n)} (h : OnlyExits trace)
    (he : (∃ i, .toldExit i ∈ trace) → ∃ j, e = .toldExit j) : OnlyExits (e :: trace) := by
  intro newer older i htrace x hx
  cases newer with
  | nil => cases hx
  | cons y newer =>
    obtain ⟨rfl, hrest⟩ := List.cons.inj htrace
    rcases List.mem_cons.mp hx with rfl | hx
    · exact he ⟨i, hrest ▸ List.mem_append_right _ (List.mem_cons_self ..)⟩
    · exact h newer older i hrest x hx

theorem exitsFinished_move {a b : Snapshot n} (h : a.sched.ExitsFinished) (hm : Move X ok a b) :
    b.sched.ExitsFinished := by
  -- a finished scheduler stays so and only exits, an unfinished one tells nobody to exit
  cases hfinished : a.sched.finished with
  | true =>
    obtain ⟨hb, htrace⟩ := finished_move hm hfinished
    refine ⟨fun _ _ => hb, fun _ _ => hb, ?_⟩
    rcases htrace with heq | ⟨i, heq⟩
    · exact heq ▸ h.only
    · rw [heq]
      exact h.only.cons fun _ => ⟨i, rfl⟩
  | false =>
    -- nobody was told to exit so far, and nobody is now
    obtain ⟨hphase, htold⟩ := exiting_move hm hfinished
    have hnone : ∀ i, .toldExit i ∉ b.sched.trace := fun i hi =>
      absurd (hfinished.symm.trans (h.told i (htold i hi))) (by decide)
    refine ⟨fun i hi => ?_, fun i hi => absurd hi (hnone i), fun newer older i htrace => ?_⟩
    · exact absurd (hfinished.symm.trans (h.phase i (hphase i hi))) (by decide)
    · exact absurd (htrace ▸ List.mem_append_right _ (List.mem_cons_self ..)) (hnone i)

/-- In every state, also in the middle of a pass. -/
theorem exitsFinished_visited {a : Snapshot n}
    (h : Visited X ok nrWorkers maxMemorySize resolver a) : a.sched.ExitsFinished := by
  refine h.invariant (I := fun a => a.sched.ExitsFinished) ⟨fun i hi => ?_, fun i hi => ?_, ?_⟩
    fun _ ha hm => exitsFinished_move ha hm
  · cases hi
  · cases hi
  · intro newer older i htrace
    cases newer <;> cases htrace

/-! ## Runs -/

/-- Over several moves, -/
theorem finished_moves {a b : Snapshot n} (hm : Relation.ReflTransGen (Move X ok) a b)
    (h : a.sched.finished = true) : b.sched.finished = true := by
  induction hm with
  | refl => exact h
  | tail _ hm ih => exact (finished_move hm ih).1

/-- over an event, which is a few moves, -/
theorem finished_step {c c' : Config n} {e : Event n} (hstep : step X c e = some c')
    (h : c.sched.finished = true) : c'.sched.finished = true :=
  finished_moves (step_moves (answered_true c e) hstep) h

/-- and over a run. -/
theorem finished_run {c c' : Config n} {es : List (Event n)}
    (hrun : (system X nrWorkers maxMemorySize resolver).run System.anyCheck c es = some c')
    (h : c.sched.finished = true) : c'.sched.finished = true := by
  induction es generalizing c with
  | nil => exact Option.some.inj hrun ▸ h
  | cons e es ih =>
    obtain ⟨m, hm, hrest⟩ := Option.bind_eq_some_iff.mp hrun
    exact ih hrest (finished_step hm h)

/-- A running worker is work to wait for. -/
theorem not_finished_of_running {s : Scheduler n} {i : Fin n}
    (h : (s.workers i).running = true) : s.finished = false := by
  rw [Bool.eq_false_iff]
  intro hf
  rw [running_eq_zero.mp (finished_iff.mp hf).2.2 i] at h
  cases h

/-- A worker is told to exit when the scheduler is finished. -/
theorem told_turn {s s' : Scheduler n} {k k' : Nat} {v : Fin n} {env : SlotEnv}
    (h : Turn X s k v env k' s') (hfinished : s.finished = false) :
    ∀ i, .toldExit i ∈ s'.trace → .toldExit i ∈ s.trace := by
  -- handing out a job tells nobody to exit
  have htake : ∀ {path source m}, (s.workers v).phase = .idle →
      s.takeJob v env.own = .ok (some (path, source), m) →
      ∀ i, .toldExit i ∈ (m.handOut v path source).trace → .toldExit i ∈ s.trace := by
    intro path source m hidle htake
    have hmove : Move X (fun _ _ _ => True) ⟨s, some k⟩ ⟨m.handOut v path source, some k⟩ :=
      takeJob_move hidle htake
    exact (exiting_move hmove hfinished).2
  cases h with
  | skip => exact fun _ hi => hi
  | exit _ hf => exact absurd (hfinished.symm.trans hf) (by decide)
  | sent hidle hjob _ => exact htake hidle hjob
  | @unsent path source m s' hidle _ hjob heof =>
    -- the slot runs its job for a moment, so this is no finished state either
    have hrunning : (m.handOut v path source).finished = false := by
      refine not_finished_of_running (i := v) ?_
      rw [takeJob_handOut_workers hjob, Function.update_self]
      rfl
    have hmove : Move X (fun _ _ _ => True) ⟨m.handOut v path source, some k⟩ ⟨s', some k⟩ :=
      onEof_move heof
    exact fun i hi => htake hidle hjob i ((exiting_move hmove hrunning).2 i hi)
  | spawn =>
    intro i hi
    rcases List.mem_cons.mp hi with hi | hi
    · cases hi
    · exact hi

/-- What an event adds to the exits it adds in a finished state. -/
theorem told_step {c c' : Config n} {e : Event n} (hstep : step X c e = some c')
    (hfinished : c.sched.finished = false) :
    ∀ i, .toldExit i ∈ c'.sched.trace → .toldExit i ∈ c.sched.trace := by
  -- only a turn of a pass tells a worker to exit
  cases step_steps hstep with
  | began _ =>
    intro i hi
    rw [beginDispatch] at hi
    split at hi
    · rcases List.mem_cons.mp hi with hi | hi
      · cases hi
      · exact hi
    · exact hi
  | turned _ hslot => exact told_turn (dispatchSlot_turn hslot) hfinished
  | ended _ => exact fun _ hi => hi
  -- a sample records an eviction at most
  | sampled hs' =>
    rcases sampleMemory_cases hs' with rfl | ⟨v, -, -, rfl⟩
    · exact fun _ hi => hi
    · intro i hi
      rcases List.mem_cons.mp hi with hi | hi
      · cases hi
      · exact hi
  | @read s s' _ _ _ _ hs' =>
    have hmove : s' = s ∨ Move X (fun _ _ _ => True) ⟨s, none⟩ ⟨s', none⟩ :=
      onLine_move (fun _ _ _ _ _ _ => trivial) hs'
    rcases hmove with rfl | hmove
    · exact fun _ hi => hi
    · exact (exiting_move hmove hfinished).2
  | @hungUp s s' _ _ _ hs' =>
    have hmove : Move X (fun _ _ _ => True) ⟨s, none⟩ ⟨s', none⟩ := onEof_move hs'
    exact (exiting_move hmove hfinished).2

/-- **Exit safety.** In every configuration a run can reach, also in the middle of a
pass: what is finished stays finished, whatever happens next; a worker is in phase
`Exiting`, or was told to exit, only if the scheduler is finished, and it is told so
only when the scheduler was finished before; and after a worker was told to exit
nothing else is recorded any more, no spawn, no job, no requeued path and no
response that could list attributes. -/
theorem exit_safety {c : Config n}
    (h : (system X nrWorkers maxMemorySize resolver).Reachable System.anyEnv c) :
    (c.sched.finished = true → ∀ es c',
      (system X nrWorkers maxMemorySize resolver).run System.anyCheck c es = some c' →
        c'.sched.finished = true) ∧
    (∀ i, (c.sched.workers i).phase = .exiting → c.sched.finished = true) ∧
    (∀ e c' i, step X c e = some c' → .toldExit i ∈ c'.sched.trace → c.sched.finished = true) ∧
    ∀ newer older i, c.sched.trace = newer ++ .toldExit i :: older →
      ∀ e ∈ newer, ∃ j, e = .toldExit j := by
  have hvisited := Visited.of_reachable (h.mono fun c e _ => answered_true (X := X) c e)
  have hexits : c.sched.ExitsFinished := exitsFinished_visited hvisited
  -- the four parts in order: later states, phases, when it was told, what came after
  refine ⟨fun hf es c' hrun => finished_run hrun hf, hexits.phase, fun e c' i hstep htold => ?_,
    hexits.only⟩
  by_contra hne
  exact hne (hexits.told i (told_step hstep (Bool.eq_false_iff.mpr hne) i htold))

/-! ## A run to the exit of its worker -/

/-- The root is an empty attribute set. -/
def emptyRoot : Json :=
  ({ attr := [], attrPath := [], payload := .attrs [] } : Response).toJson StorePaths.plain

/-- The only worker answers for the root and is told to exit in the next pass. -/
def exitRun : List (Event 1) :=
  Event.calmPass 1 ++ [Event.line 0 msgNext 50] ++ Event.calmPass 1 ++
    [Event.line 0 (emptyRoot.plainDump.getD []) 50, .line 0 msgNext 50] ++ Event.calmPass 1

/-- The run goes through. -/
theorem exitRun_isSome :
    ((system (Externals.plain [emptyRoot]) 1 4096 false).run System.anyCheck
      (system (Externals.plain [emptyRoot]) 1 4096 false).init exitRun).isSome = true := by
  decide +kernel

/-- Its only worker is exiting, and the scheduler is finished. -/
theorem exit_safety_exitRun :
    let c := (system (Externals.plain [emptyRoot]) 1 4096 false).after System.anyCheck exitRun
      exitRun_isSome
    (c.sched.workers 0).phase = .exiting ∧ c.sched.finished = true := by
  intro c
  have hexiting : (c.sched.workers 0).phase = .exiting := by decide +kernel
  have h := exit_safety (System.reachable_after (fun _ _ _ => trivial) exitRun exitRun_isSome)
  exact ⟨hexiting, h.2.1 0 hexiting⟩

end Scheduler

end NixEvalJobs
