import NixEvalJobs.Spec.Policy

/-!
# Spec — the Quint model

`spec/scheduler.qnt`, for any constants: workers, queues, mode and memory, with the
environment reduced to what the scheduler reacts to. The properties at its end are
checked there by simulation, for three workers and five jobs. Here they are proved.

* `policy_simulates` — the model keeps to the policy.
* `inv_reachable` — `inv` of the model, for any number of workers, any budget, any jobs
  with any costs and any number of external kills.
* `onlyHugeErrors` — without the kernel OOM killer a job is given up only if it alone is
  larger than the budget.
-/

namespace NixEvalJobs

namespace Quint

variable {J : Type} [DecidableEq J] {n : Nat}

/-! ## The model -/

/-- `N_WORKERS` is the `n` of the pool; the amounts are in MiB. -/
structure Constants (J : Type) where
  budget : Nat
  jobs : Finset J
  /-- Peak growth of a job. -/
  cost : J → Nat
  /-- Memory of a fresh worker. -/
  base : Nat
  /-- How often the kernel OOM killer may strike. -/
  externalKills : Nat

/-- `heap` is what is retained after jobs; no job is `""` in the model. -/
structure Worker (J : Type) where
  phase : Phase := .none
  job : Option J := none
  rss : Nat := 0
  startRss : Nat := 0
  heap : Nat := 0
  deriving DecidableEq

/-- `State` of the model; `done` and `errored` are the verdicts on jobs. -/
structure State (J : Type) (n : Nat) where
  workers : Fin n → Worker J
  todo : Finset J
  solo : List J
  mode : Mode
  estimate : Nat
  done : Finset J
  errored : Finset J
  /-- How often it has struck. -/
  externalKills : Nat
  deriving DecidableEq

/-- The instance `main`. -/
def main : Constants String where
  budget := 3000
  jobs := {"a", "b", "c", "fat", "huge"}
  cost
    | "a" => 100
    | "b" => 400
    | "c" => 800
    | "fat" => 2000
    | "huge" => 5000
    | _ => 0
  base := 300
  externalKills := 2

/-- The instance `noOomKiller`. -/
def noOomKiller : Constants String := { main with externalKills := 0 }

/-- A process that has just been started. -/
def freshWorker (c : Constants J) : Worker J :=
  { phase := .starting, rss := c.base, heap := c.base }

/-! ### Derived -/

namespace Worker

/-- There is a process in the slot. -/
def alive (w : Worker J) : Bool := w.phase ≠ .none

/-- The worker has a job, be it one it was killed over. -/
def running (w : Worker J) : Bool := w.phase = .busy ∨ w.phase = .killed

/-- What the worker needs at most for the job it has. -/
def peak (c : Constants J) (w : Worker J) : Nat :=
  w.heap + match w.job with
    | none => 0
    | some job => c.cost job

/-- A worker that has just been given a job. -/
def take (w : Worker J) (job : J) : Worker J :=
  { w with phase := .busy, job := some job, startRss := w.rss }

end Worker

namespace State

variable (c : Constants J) (s : State J n) (i : Fin n)

/-- Assignment to a slot. -/
def setW (x : Worker J) : State J n := { s with workers := Function.update s.workers i x }

/-- Jobs in flight. -/
def nRunning : Nat := countSlots Worker.running s.workers

/-- Slots with a process. -/
def nAlive : Nat := countSlots Worker.alive s.workers

/-- Workers in a phase. -/
def nPhase (phase : Phase) : Nat := countSlots (fun w => w.phase = phase) s.workers

/-- What the workers hold together; the collector's own memory is not modelled. -/
def totalRss : Nat := ∑ i, (s.workers i).rss

/-- Nothing is queued and nothing runs. -/
def finished : Bool := s.todo = ∅ ∧ s.solo.length = 0 ∧ s.nRunning = 0

/-- Finished, and every worker is gone. -/
def terminated : Bool := s.finished ∧ s.nAlive = 0

/-- Unlike the class, the model counts killed workers here too. -/
def fitsBudget : Bool :=
  s.nRunning = 0 ∨ s.totalRss + (s.nRunning + 1) * s.estimate ≤ c.budget

/-- How many more workers are wanted; in Solo mode exactly one may exist at all. -/
def spawnable : Nat :=
  if s.mode = .solo then if s.nAlive > 0 then 0 else 1
  else if s.solo.length = 0 then s.todo.card - (s.nPhase .starting + s.nPhase .idle)
  else 0

/-! ### `dispatch()` -/

/-- A slot without a process, while workers are wanted. -/
def canSpawn : Bool := !s.finished ∧ (s.workers i).phase = .none ∧ s.spawnable > 0

/-- The slot gets a fresh worker. -/
def doSpawn : State J n := s.setW i (freshWorker c)

/-- Workers are told to exit once nothing can produce work any more. -/
def canSendExit : Bool := s.finished ∧ (s.workers i).phase = .idle

/-- The worker has been told, its EOF is to come. -/
def doSendExit : State J n := s.setW i { s.workers i with phase := .exiting }

/-- Parallel work is over and evicted jobs are waiting. -/
def canEnterSolo : Bool :=
  !s.finished ∧ s.mode = .parallel ∧ s.solo.length > 0 ∧ s.nRunning = 0

/-- All workers are dropped, so that the first solo job finds a fresh one. -/
def doEnterSolo : State J n := { s with workers := fun _ => {}, mode := .solo }

/-- An idle worker, alone, and a job that waits to be tried alone. -/
def canTakeSolo : Bool :=
  !s.finished ∧ (s.workers i).phase = .idle ∧ s.mode = .solo ∧ s.nRunning = 0 ∧ s.solo.length > 0

/-- The job evicted last is taken first. -/
def doTakeSolo : State J n :=
  match s.solo.getLast? with
  | none => s
  | some job => { s.setW i ((s.workers i).take job) with solo := s.solo.dropLast }

/-- An idle worker, and room for one more job. -/
def canTakeTodo : Bool :=
  !s.finished ∧ (s.workers i).phase = .idle ∧ s.mode = .parallel ∧ s.solo.length = 0 ∧
    s.todo ≠ ∅ ∧ s.fitsBudget c

/-- Which job is taken is left open. -/
def doTakeTodo (job : J) : State J n :=
  { s.setW i ((s.workers i).take job) with todo := s.todo \ {job} }

/-! ### Worker output -/

/-- The worker has yet to say `next`. -/
def canStarted : Bool := (s.workers i).phase = .starting

/-- `next`: it waits for a job. -/
def doStarted : State J n := s.setW i { s.workers i with phase := .idle }

/-- After a job a worker above its share restarts. -/
def canRestarted : Bool := (s.workers i).phase = .starting ∧ (s.workers i).heap > c.budget / n

/-- `restart`: the slot is empty again. -/
def doRestarted : State J n := s.setW i {}

/-- The job has grown to its peak. -/
def canFinish : Bool := (s.workers i).phase = .busy ∧ (s.workers i).rss = (s.workers i).peak c

/-- The response line: the worker keeps half of what the job used, the estimate decays or
learns, and the mode is parallel again. -/
def doFinish : State J n :=
  let x := s.workers i
  let retained := x.heap + (x.peak c - x.heap) / 2
  { s.setW i { phase := .starting, heap := retained, rss := retained } with
    estimate := max (s.estimate * 98 / 100) (retained - x.startRss)
    done := s.done ∪ x.job.toFinset
    mode := .parallel }

/-- A worker that was told to exit. -/
def canExited : Bool := (s.workers i).phase = .exiting

/-- Its EOF. -/
def doExited : State J n := s.setW i {}

/-- By us, or by the kernel as long as it may. -/
def canKilledEof : Bool :=
  (s.workers i).phase = .killed ∨
    ((s.workers i).alive ∧ (s.workers i).phase ≠ .exiting ∧ s.externalKills < c.externalKills)

/-- EOF after a SIGKILL: the job goes to the solo queue, or, if it was alone already,
becomes an error. -/
def doKilledEof : State J n :=
  let x := s.workers i
  let s₁ := { s.setW i {} with
    mode := .parallel
    externalKills := if x.phase = .killed then s.externalKills else s.externalKills + 1 }
  if !x.running then s₁
  else if s.mode = .solo then { s₁ with errored := s.errored ∪ x.job.toFinset }
  else { s₁ with solo := s.solo ++ x.job.toList }

/-! ### Time passing -/

/-- A job that has not used all it needs. -/
def canGrow : Bool := (s.workers i).phase = .busy ∧ (s.workers i).rss < (s.workers i).peak c

/-- It uses all it needs. -/
def doGrow : State J n := s.setW i { s.workers i with rss := (s.workers i).peak c }

/-- There is somebody to look at. -/
def canSample : Bool := s.nAlive > 0

/-- `sampleMemory`: learn the estimate from what the running jobs have grown, and kill the
victim if the budget is exceeded. -/
def doSample (victim : Fin n) : State J n :=
  let est := max s.estimate (Finset.univ.sup fun i =>
    if (s.workers i).running then (s.workers i).rss - (s.workers i).startRss else 0)
  let s₁ := { s with estimate := est }
  if s.totalRss > c.budget ∧ (s.workers victim).phase = .busy then
    s₁.setW victim { s.workers victim with phase := .killed }
  else s₁

/-- `v` is busy and no busy worker holds more. -/
def isLargestBusy (v : Fin n) : Bool :=
  (s.workers v).phase = .busy ∧
    ∀ k, (s.workers k).phase ≠ .busy ∨ (s.workers k).rss ≤ (s.workers v).rss

end State

/-! ### The state machine -/

/-- The state and the ghost `wasFinished`. -/
structure Run (J : Type) (n : Nat) where
  st : State J n
  wasFinished : Bool

/-- The choices of `step`. -/
inductive Event (J : Type) (n : Nat) where
  | spawn (i : Fin n)
  | sendExit (i : Fin n)
  | enterSolo
  | takeSolo (i : Fin n)
  | takeTodo (i : Fin n) (job : J)
  | started (i : Fin n)
  | restarted (i : Fin n)
  | finish (i : Fin n)
  | exited (i : Fin n)
  | killedEof (i : Fin n)
  | grow (i : Fin n)
  | sample (victim : Fin n)

open State

/-- A step whose guard must hold; the ghost remembers whether all was finished before it. -/
def guarded (r : Run J n) (guard : Bool) (s₁ : State J n) : Option (Run J n) :=
  if guard then some ⟨s₁, r.st.finished⟩ else none

/-- `step` of the model, one event for each choice of its `any`. -/
def step (c : Constants J) (r : Run J n) : Event J n → Option (Run J n)
  | .spawn i => guarded r (r.st.canSpawn i) (r.st.doSpawn c i)
  | .sendExit i => guarded r (r.st.canSendExit i) (r.st.doSendExit i)
  | .enterSolo => guarded r r.st.canEnterSolo r.st.doEnterSolo
  | .takeSolo i => guarded r (r.st.canTakeSolo i) (r.st.doTakeSolo i)
  | .takeTodo i job =>
    guarded r (r.st.canTakeTodo c i && decide (job ∈ r.st.todo)) (r.st.doTakeTodo i job)
  | .started i => guarded r (r.st.canStarted i) (r.st.doStarted i)
  | .restarted i => guarded r (r.st.canRestarted c i) (r.st.doRestarted i)
  | .finish i => guarded r (r.st.canFinish c i) (r.st.doFinish c i)
  | .exited i => guarded r (r.st.canExited i) (r.st.doExited i)
  | .killedEof i => guarded r (r.st.canKilledEof c i) (r.st.doKilledEof i)
  | .grow i => guarded r (r.st.canGrow c i) (r.st.doGrow c i)
  | .sample victim =>
    guarded r (r.st.canSample && (r.st.isLargestBusy victim || r.st.nPhase .busy = 0))
      (r.st.doSample c victim)

/-- `init` of the model. -/
def init (c : Constants J) : State J n where
  workers := fun _ => {}
  todo := c.jobs
  solo := []
  mode := .parallel
  estimate := 512
  done := ∅
  errored := ∅
  externalKills := 0

/-- The state machine as a system without an environment. -/
def system (n : Nat) (c : Constants J) : System (Run J n) (Event J n) where
  init := ⟨init c, false⟩
  step := step c

/-! ### Properties -/

namespace State

variable (c : Constants J) (s : State J n)

/-- The jobs of the running workers. -/
def runningJobs : Finset J :=
  Finset.univ.biUnion fun i => if (s.workers i).running then (s.workers i).job.toFinset else ∅

/-- Something can happen without the clock, or everything is over. -/
def someEnabled : Prop :=
  s.terminated = true ∨ s.canEnterSolo = true ∨ ∃ i : Fin n,
    s.canSpawn i = true ∨ s.canSendExit i = true ∨ s.canTakeSolo i = true ∨
      s.canTakeTodo c i = true ∨ s.canStarted i = true ∨ s.canRestarted c i = true ∨
      s.canFinish c i = true ∨ s.canExited i = true ∨ (s.workers i).phase = .killed ∨
      s.canGrow c i = true

end State

/-- `inv` of the model. -/
structure Inv (c : Constants J) (r : Run J n) : Prop where
  /-- Every job is in exactly one place. -/
  conservation :
    c.jobs = r.st.todo ∪ r.st.solo.toFinset ∪ r.st.runningJobs ∪ r.st.done ∪ r.st.errored ∧
    c.jobs.card = r.st.todo.card + r.st.solo.length + r.st.nRunning + r.st.done.card +
      r.st.errored.card
  /-- Solo means one fresh worker and nothing else. -/
  soloAlone : r.st.mode = .solo → r.st.nAlive ≤ 1 ∧
    ∀ i, (r.st.workers i).running = true → (r.st.workers i).heap = c.base
  /-- Solo is left as soon as its job ends, so it always has work. -/
  soloProgress : r.st.mode = .solo → r.st.solo.length > 0 ∨ r.st.nRunning = 1
  /-- Workers are told to exit only when nothing is left, and what is finished stays so. -/
  exitingOnlyWhenFinished : (r.st.nPhase .exiting > 0 → r.st.finished = true) ∧
    (r.wasFinished = true → r.st.finished = true)
  phasesConsistent : ∀ i, (r.st.workers i).running = (r.st.workers i).job.isSome
  /-- The loop never waits for ever. -/
  someEnabled : r.st.someEnabled c
  /-- Once everything terminated, every job has a verdict. -/
  complete : r.st.terminated = true → r.st.done ∪ r.st.errored = c.jobs

/-! ## What a step can do -/

/-- The transitions with their guards. -/
inductive Moves (c : Constants J) (s : State J n) : State J n → Prop where
  | spawn {i : Fin n} : s.canSpawn i = true → Moves c s (s.doSpawn c i)
  | sendExit {i : Fin n} : s.canSendExit i = true → Moves c s (s.doSendExit i)
  | enterSolo : s.canEnterSolo = true → Moves c s s.doEnterSolo
  | takeSolo {i : Fin n} : s.canTakeSolo i = true → Moves c s (s.doTakeSolo i)
  | takeTodo {i : Fin n} {job : J} : s.canTakeTodo c i = true → job ∈ s.todo →
      Moves c s (s.doTakeTodo i job)
  | started {i : Fin n} : s.canStarted i = true → Moves c s (s.doStarted i)
  | restarted {i : Fin n} : s.canRestarted c i = true → Moves c s (s.doRestarted i)
  | finish {i : Fin n} : s.canFinish c i = true → Moves c s (s.doFinish c i)
  | exited {i : Fin n} : s.canExited i = true → Moves c s (s.doExited i)
  | killedEof {i : Fin n} : s.canKilledEof c i = true → Moves c s (s.doKilledEof i)
  | grow {i : Fin n} : s.canGrow c i = true → Moves c s (s.doGrow c i)
  | sample {victim : Fin n} : s.canSample = true →
      s.isLargestBusy victim = true ∨ s.nPhase .busy = 0 → Moves c s (s.doSample c victim)

variable {c : Constants J} {s s' : State J n} {r r' : Run J n}

/-- The inversion of `step`: all that later proofs know of it. -/
theorem step_moves {e : Event J n} (h : step c r e = some r') :
    Moves c r.st r'.st ∧ r'.wasFinished = r.st.finished := by
  cases e with
  -- these choices have nothing but their guard
  | spawn | sendExit | enterSolo | takeSolo | started | restarted | finish | exited | killedEof
  | grow =>
    obtain ⟨hguard, hr'⟩ := Option.ite_none_right_eq_some.mp h
    obtain rfl := Option.some.inj hr'
    refine ⟨?_, rfl⟩
    first
      | exact .spawn hguard
      | exact .sendExit hguard
      | exact .enterSolo hguard
      | exact .takeSolo hguard
      | exact .started hguard
      | exact .restarted hguard
      | exact .finish hguard
      | exact .exited hguard
      | exact .killedEof hguard
      | exact .grow hguard
  | takeTodo i job =>
    -- the job is one of those in `todo`
    obtain ⟨hguard, hr'⟩ := Option.ite_none_right_eq_some.mp h
    obtain rfl := Option.some.inj hr'
    rw [Bool.and_eq_true, decide_eq_true_eq] at hguard
    exact ⟨.takeTodo hguard.1 hguard.2, rfl⟩
  | sample victim =>
    -- a victim that is not the largest is only allowed when nobody is busy
    obtain ⟨hguard, hr'⟩ := Option.ite_none_right_eq_some.mp h
    obtain rfl := Option.some.inj hr'
    rw [Bool.and_eq_true, Bool.or_eq_true, decide_eq_true_eq] at hguard
    exact ⟨.sample hguard.1 hguard.2, rfl⟩

/-! ## The model keeps to the policy -/

/-- The worker without its heap, which the scheduler cannot see. -/
def Worker.erase (w : Worker J) : Policy.Worker J where
  phase := w.phase
  job := w.job
  rss := w.rss
  startRss := w.startRss

/-- The state without what only the memory model reads. -/
def State.erase (c : Constants J) (s : State J n) : Policy.State J n where
  workers := fun i => (s.workers i).erase
  jobs := c.jobs
  todo := s.todo
  solo := s.solo
  mode := s.mode
  estimate := s.estimate
  done := s.done
  errored := s.errored

namespace State

omit [DecidableEq J] in
/-- Erasing commutes with assignment to a slot. -/
theorem erase_setW {i : Fin n} {x : Worker J} {w : Policy.Worker J} (h : w = x.erase) :
    (s.erase c).setW i w = (s.setW i x).erase c := by
  rw [h, erase, Policy.State.setW, setW]
  congr 1
  exact funext fun j => (Function.apply_update (fun _ => Worker.erase) s.workers i x j).symm

/-- Both levels agree on what is finished, -/
theorem finished_erase (s : State J n) : (s.erase c).finished = s.finished := by
  rw [finished, Policy.State.finished]
  simp only [List.length_eq_zero_iff]
  rfl

omit [DecidableEq J] in
/-- on the room there is, -/
theorem fitsBudget_erase (s : State J n) : (s.erase c).fitsBudget c.budget 0 = s.fitsBudget c := by
  rw [fitsBudget, Policy.State.fitsBudget, Nat.zero_add]
  rfl

omit [DecidableEq J] in
/-- and on who holds the most. -/
theorem isLargestBusy_erase (s : State J n) (v : Fin n) :
    (s.erase c).isLargestBusy v = s.isLargestBusy v := by
  rw [isLargestBusy, Policy.State.isLargestBusy]
  simp only [← imp_iff_not_or]
  rfl

end State

/-- The end of a job is one without children, after which the worker holds what it has
retained. -/
theorem finish_policy {i : Fin n} (hguard : s.canFinish c i = true) :
    ∃ e, Policy.step c.budget (s.erase c) e = some ((s.doFinish c i).erase c) := by
  simp only [State.canFinish, decide_eq_true_eq] at hguard
  let retained := (s.workers i).heap + ((s.workers i).peak c - (s.workers i).heap) / 2
  refine ⟨.finish i retained ∅,
    -- both sides are the same update of a state whose slot was assigned
    (if_pos ⟨hguard.1, Finset.disjoint_empty_left _⟩).trans ?_⟩
  have hslot : (s.erase c).setW i { phase := .starting, rss := retained } =
    (s.setW i { phase := .starting, heap := retained, rss := retained }).erase c :=
    State.erase_setW rfl
  rw [Policy.State.doFinish, Finset.union_empty, Finset.union_empty]
  exact congrArg (fun m : Policy.State J n => some { m with
    estimate := max (s.estimate * 98 / 100) (retained - (s.workers i).startRss)
    done := s.done ∪ (s.workers i).job.toFinset
    mode := .parallel }) hslot

/-- The end of a killed worker is the same in both, with or without a job, alone or not. -/
theorem killedEof_policy {i : Fin n} (hguard : s.canKilledEof c i = true) :
    ∃ e, Policy.step c.budget (s.erase c) e = some ((s.doKilledEof i).erase c) := by
  simp only [State.canKilledEof, decide_eq_true_eq] at hguard
  have hlive : (s.workers i).alive = true ∧ (s.workers i).phase ≠ .exiting := by
    rcases hguard with hkilled | ⟨halive, hne, -⟩
    · simp [Worker.alive, hkilled]
    · exact ⟨halive, hne⟩
  refine ⟨.killedEof i, (if_pos hlive).trans ?_⟩
  have hslot : (s.erase c).setW i {} = (s.setW i {}).erase c := State.erase_setW rfl
  rw [Policy.State.doKilledEof, State.doKilledEof]
  cases hr : (s.workers i).running with
  | false =>
    -- without a job nothing moves, in the policy by empty lists
    have hr' : ((s.erase c).workers i).running = false := hr
    simp only [hr', Bool.not_false, if_true, Bool.false_eq_true, if_false, Option.toList_none,
      Option.toFinset_none, List.append_nil, Finset.union_empty, ite_self]
    exact congrArg (fun m : Policy.State J n => some { m with mode := .parallel }) hslot
  | true =>
    -- the job goes to `solo`, or to `errored` if it was alone
    have hr' : ((s.erase c).workers i).running = true := hr
    simp only [hr', Bool.not_true, Bool.false_eq_true, if_false, if_true]
    by_cases hm : s.mode = .solo
    · have hm' : (s.erase c).mode = .solo := hm
      simp only [hm, hm', if_true]
      exact congrArg (fun m : Policy.State J n => some { m with
        errored := s.errored ∪ (s.workers i).job.toFinset, mode := .parallel }) hslot
    · have hm' : (s.erase c).mode ≠ .solo := hm
      simp only [hm, hm', if_false]
      exact congrArg (fun m : Policy.State J n => some { m with
        solo := s.solo ++ (s.workers i).job.toList, mode := .parallel }) hslot

/-- Every transition of the model is a move of the policy. -/
theorem moves_policy (h : Moves c s s') :
    ∃ e, Policy.step c.budget (s.erase c) e = some (s'.erase c) := by
  cases h with
  | @spawn i hguard =>
    simp only [State.canSpawn, Bool.not_eq_true', decide_eq_true_eq] at hguard
    -- the policy asks for an empty pool in Solo mode, `spawnable` counts for it
    have halone : s.mode = .solo → s.nAlive = 0 := by
      intro hm
      have hpos := hguard.2.2
      rw [State.spawnable, if_pos hm] at hpos
      split at hpos
      · cases hpos
      · next hnone => exact Nat.eq_zero_of_not_pos hnone
    refine ⟨.spawn i c.base, (if_pos ⟨(State.finished_erase s).trans hguard.1, hguard.2.1,
      halone⟩).trans ?_⟩
    exact congrArg some (State.erase_setW (by rfl))
  | @sendExit i hguard =>
    simp only [State.canSendExit, decide_eq_true_eq] at hguard
    refine ⟨.sendExit i, (if_pos ⟨(State.finished_erase s).trans hguard.1, hguard.2⟩).trans ?_⟩
    exact congrArg some (State.erase_setW (by rfl))
  | enterSolo hguard =>
    simp only [State.canEnterSolo, Bool.not_eq_true', decide_eq_true_eq] at hguard
    exact ⟨.enterSolo, if_pos ⟨hguard.2.1, List.ne_nil_of_length_pos hguard.2.2.1, hguard.2.2.2⟩⟩
  | @takeSolo i hguard =>
    simp only [State.canTakeSolo, Bool.not_eq_true', decide_eq_true_eq] at hguard
    obtain ⟨job, hjob⟩ := Option.isSome_iff_exists.mp
      (List.getLast?_isSome.mpr (List.ne_nil_of_length_pos hguard.2.2.2.2))
    refine ⟨.takeSolo i job, (if_pos ⟨hguard.2.1, hguard.2.2.1, hguard.2.2.2.1, hjob⟩).trans ?_⟩
    have hslot : (s.erase c).setW i (((s.erase c).workers i).take job) =
      (s.setW i ((s.workers i).take job)).erase c := State.erase_setW rfl
    rw [State.doTakeSolo, hjob]
    exact congrArg (fun m : Policy.State J n => some { m with solo := s.solo.dropLast }) hslot
  | @takeTodo i job hguard hjob =>
    simp only [State.canTakeTodo, Bool.not_eq_true', decide_eq_true_eq] at hguard
    obtain ⟨-, hidle, hmode, hsolo, -, hfits⟩ := hguard
    -- the policy's room check with nothing held by the collector itself
    refine ⟨.takeTodo i job 0, (if_pos ⟨hidle, hmode, List.length_eq_zero_iff.mp hsolo, hjob,
      (State.fitsBudget_erase s).trans hfits⟩).trans ?_⟩
    have hslot : (s.erase c).setW i (((s.erase c).workers i).take job) =
      (s.setW i ((s.workers i).take job)).erase c := State.erase_setW rfl
    rw [State.doTakeTodo, Finset.sdiff_singleton_eq_erase]
    exact congrArg (fun m : Policy.State J n => some { m with todo := s.todo.erase job }) hslot
  | @started i hguard =>
    refine ⟨.started i, (if_pos (of_decide_eq_true hguard :)).trans ?_⟩
    exact congrArg some (State.erase_setW (by rfl))
  | @restarted i hguard =>
    simp only [State.canRestarted, decide_eq_true_eq] at hguard
    refine ⟨.restarted i, (if_pos hguard.1).trans ?_⟩
    exact congrArg some (State.erase_setW (by rfl))
  | finish hguard => exact finish_policy hguard
  | @exited i hguard =>
    refine ⟨.exited i, (if_pos (of_decide_eq_true hguard :)).trans ?_⟩
    exact congrArg some (State.erase_setW (by rfl))
  | killedEof hguard => exact killedEof_policy hguard
  | @grow i hguard =>
    simp only [State.canGrow, decide_eq_true_eq] at hguard
    -- only the reading of the grown worker is new
    refine ⟨.observe (Function.update (fun k => (s.workers k).rss) i ((s.workers i).peak c)),
      congrArg some ?_⟩
    rw [State.doGrow, ← State.erase_setW rfl, Policy.State.doObserve, Policy.State.setW]
    congr 1
    funext k
    by_cases hk : k = i
    · subst hk
      have halive : ((s.erase c).workers k).alive = true := by
        simp [Policy.Worker.alive, State.erase, Worker.erase, hguard.1]
      rw [Function.update_self, Function.update_self, Policy.Worker.read, if_pos halive]
      rfl
    · rw [Function.update_of_ne hk, Function.update_of_ne hk, Policy.Worker.read]
      exact ite_self _
  | @sample victim hsample hguard =>
    refine ⟨.sample 0 victim,
      (if_pos (hguard.imp_left (State.isLargestBusy_erase s victim).trans)).trans ?_⟩
    rw [Policy.State.doSample, State.doSample, Nat.zero_add]
    refine congrArg some ?_
    by_cases hover : s.totalRss > c.budget ∧ (s.workers victim).phase = .busy
    · have hover' : c.budget < (s.erase c).totalRss ∧
          ((s.erase c).workers victim).phase = .busy := hover
      have hslot : (s.erase c).setW victim (((s.erase c).workers victim).enter .killed) =
        (s.setW victim { s.workers victim with phase := .killed }).erase c := State.erase_setW rfl
      rw [if_pos hover, if_pos hover']
      exact congrArg (fun m : Policy.State J n =>
        { m with estimate := max s.estimate (s.erase c).learned }) hslot
    · have hover' : ¬(c.budget < (s.erase c).totalRss ∧
          ((s.erase c).workers victim).phase = .busy) := hover
      rw [if_neg hover, if_neg hover']
      rfl

/-- **The Quint model keeps to the policy.** -/
theorem policy_simulates (n : Nat) (c : Constants J) :
    System.Simulation (system n c) System.anyEnv (Policy.system c.budget c.jobs 512)
      System.anyEnv fun r m => m = r.st.erase c where
  init := rfl
  step {r r' m e} _ _ hrel _ hstep := by
    obtain rfl := hrel
    obtain ⟨e', he'⟩ := moves_policy (step_moves hstep).1
    exact ⟨_, System.Leads.step (e := e') trivial he', rfl⟩

/-- What the policy keeps the model keeps: the invariant is proved once, for the policy. -/
theorem policy_inv (h : (system n c).Reachable System.anyEnv r) : (r.st.erase c).Inv :=
  (policy_simulates n c).invariant (I := fun r => (r.st.erase c).Inv)
    (fun hm hrel => hrel ▸ Policy.inv_of_reachable hm) h

/-! ## The memory of the model -/

namespace Worker

/-- The memory of a worker is what it retains, or what its job needs at most. -/
def Measured (c : Constants J) (w : Worker J) : Prop := w.rss = w.heap ∨ w.rss = w.peak c

omit [DecidableEq J] in
/-- Without a job a worker holds what it retains. -/
theorem Measured.rss_eq_heap {w : Worker J} (h : w.Measured c) (hjob : w.job = none) :
    w.rss = w.heap := by
  rw [Measured, peak, hjob, Nat.add_zero, or_self] at h
  exact h

omit [DecidableEq J] in
/-- No worker ever holds more than its peak. -/
theorem Measured.rss_le {w : Worker J} (h : w.Measured c) : w.rss ≤ w.peak c := by
  rcases h with h | h
  · rw [h]
    exact Nat.le_add_right ..
  · exact h.le

end Worker

namespace State

omit [DecidableEq J] in
/-- What `setW` leaves in the slot, -/
theorem workers_setW_self (s : State J n) (i : Fin n) (x : Worker J) :
    (s.setW i x).workers i = x := Function.update_self ..

omit [DecidableEq J] in
/-- and in the others. -/
theorem workers_setW_of_ne {i j : Fin n} (h : j ≠ i) (x : Worker J) :
    (s.setW i x).workers j = s.workers j := Function.update_of_ne h ..

omit [DecidableEq J] in
/-- A property of all workers survives an assignment that has it. -/
theorem forall_setW {p : Worker J → Prop} {i : Fin n} {x : Worker J} (hx : p x)
    (h : ∀ j, p (s.workers j)) (j : Fin n) : p ((s.setW i x).workers j) := by
  by_cases hj : j = i
  · rw [hj, workers_setW_self]
    exact hx
  · rw [workers_setW_of_ne hj]
    exact h j

end State

/-- The bound on memory is kept by every move. -/
theorem measured_moves (h : Moves c s s') (hinv : (s.erase c).Inv)
    (hm : ∀ i, (s.workers i).Measured c) (i : Fin n) : (s'.workers i).Measured c := by
  -- an idle worker has no job, so it holds what it retains
  have htake : ∀ {k : Fin n} (job : J), (s.workers k).phase = .idle →
      ((s.workers k).take job).Measured c := by
    intro k job hidle
    have hnone := (hinv.consistent k).job_eq_none
      (Policy.Worker.running_eq_false (by simp [State.erase, Worker.erase, hidle])
        (by simp [State.erase, Worker.erase, hidle]))
    exact .inl ((hm k).rss_eq_heap hnone)
  cases h with
  | spawn | restarted | exited => exact State.forall_setW (p := Worker.Measured c) (.inl rfl) hm i
  | enterSolo => exact .inl rfl
  | @sendExit k | @started k =>
    refine State.forall_setW (p := Worker.Measured c) ?_ hm i
    exact hm k
  | @takeSolo k hguard =>
    -- taking a job raises the peak, so the first disjunct is needed before
    simp only [State.canTakeSolo, Bool.not_eq_true', decide_eq_true_eq] at hguard
    rw [State.doTakeSolo]
    split
    · exact hm i
    · next job _ =>
      exact State.forall_setW (p := Worker.Measured c) (htake job hguard.2.1) hm i
  | @takeTodo k job hguard =>
    simp only [State.canTakeTodo, Bool.not_eq_true', decide_eq_true_eq] at hguard
    exact State.forall_setW (p := Worker.Measured c) (htake job hguard.2.1) hm i
  | finish => exact State.forall_setW (p := Worker.Measured c) (.inl rfl) hm i
  | @killedEof k =>
    have hslot := State.forall_setW (p := Worker.Measured c) (s := s) (i := k) (x := {})
      (.inl rfl) hm i
    rw [State.doKilledEof]
    dsimp only
    split
    · exact hslot
    · split
      · exact hslot
      · exact hslot
  -- growing reaches the peak at once
  | grow => exact State.forall_setW (p := Worker.Measured c) (.inr rfl) hm i
  | @sample victim =>
    rw [State.doSample]
    dsimp only
    split
    · refine State.forall_setW (p := Worker.Measured c) ?_ hm i
      exact hm victim
    · exact hm i

/-- In Solo mode a worker has only the heap it started with. -/
def Fresh (c : Constants J) (s : State J n) : Prop :=
  s.mode = .solo → ∀ i, (s.workers i).alive = true → (s.workers i).heap = c.base

/-- Solo mode is entered with an empty pool and left with the first job that ends, so the
one worker in it has never finished a job. -/
theorem fresh_moves (h : Moves c s s') (hfresh : Fresh c s) : Fresh c s' := by
  have hslot : ∀ {k : Fin n} {x : Worker J}, s.mode = .solo →
      (x.alive = true → x.heap = c.base) → ∀ i, ((s.setW k x).workers i).alive = true →
        ((s.setW k x).workers i).heap = c.base := fun hmode hx i =>
    State.forall_setW (p := fun w => w.alive = true → w.heap = c.base) hx (hfresh hmode) i
  intro hmode i halive
  cases h with
  | spawn => exact hslot hmode (fun _ => rfl) i halive
  | @sendExit k hguard =>
    simp only [State.canSendExit, decide_eq_true_eq] at hguard
    refine hslot hmode ?_ i halive
    exact fun _ => hfresh hmode k (by simp [Worker.alive, hguard.2])
  -- nobody is alive right after the switch
  | enterSolo => cases halive
  | @takeSolo k hguard =>
    simp only [State.canTakeSolo, Bool.not_eq_true', decide_eq_true_eq] at hguard
    obtain ⟨job, hjob⟩ := Option.isSome_iff_exists.mp
      (List.getLast?_isSome.mpr (List.ne_nil_of_length_pos hguard.2.2.2.2))
    rw [State.doTakeSolo, hjob] at halive ⊢
    refine hslot hguard.2.2.1 ?_ i halive
    exact fun _ => hfresh hguard.2.2.1 k (by simp [Worker.alive, hguard.2.1])
  | @takeTodo k job hguard =>
    simp only [State.canTakeTodo, Bool.not_eq_true', decide_eq_true_eq] at hguard
    -- `todo` is not served in Solo mode
    rw [show s.mode = .solo from hmode] at hguard
    cases hguard.2.2.1
  | @started k hguard =>
    refine hslot hmode ?_ i halive
    exact fun _ => hfresh hmode k (by simp [Worker.alive, of_decide_eq_true hguard])
  | restarted | exited => exact hslot hmode (fun hdead => by cases hdead) i halive
  -- the two ways a job ends lead back to parallel mode
  | finish => cases hmode
  | killedEof =>
    rw [State.doKilledEof] at hmode
    dsimp only at hmode
    split at hmode
    · cases hmode
    · split at hmode <;> cases hmode
  | @grow k hguard =>
    simp only [State.canGrow, decide_eq_true_eq] at hguard
    refine hslot hmode ?_ i halive
    exact fun _ => hfresh hmode k (by simp [Worker.alive, hguard.1])
  | @sample victim =>
    rw [State.doSample] at hmode halive ⊢
    dsimp only at hmode halive ⊢
    split at hmode
    · next hover =>
      rw [if_pos hover] at halive ⊢
      refine hslot hmode ?_ i halive
      exact fun _ => hfresh hmode victim (by simp [Worker.alive, hover.2])
    · next hover =>
      rw [if_neg hover] at halive ⊢
      exact hfresh hmode i halive

/-- What is known of every run. -/
structure Sound (c : Constants J) (r : Run J n) : Prop where
  /-- From the policy, through the simulation. -/
  policy : (r.st.erase c).Inv
  measured : ∀ i, (r.st.workers i).Measured c
  fresh : Fresh c r.st
  wasFinished : r.wasFinished = true → r.st.finished = true

/-- It holds of the initial state, where nobody is alive. -/
theorem sound_init (c : Constants J) : Sound (n := n) c ⟨init c, false⟩ where
  policy := Policy.inv_init c.jobs 512
  measured _ := .inl rfl
  fresh hmode := by cases hmode
  wasFinished hwas := by cases hwas

/-- One step keeps it: the parts about the pool come from the policy, those about memory
from the moves themselves. -/
theorem sound_moves (h : Moves c r.st r'.st) (hwas : r'.wasFinished = r.st.finished)
    (hsound : Sound c r) : Sound c r' := by
  obtain ⟨e, he⟩ := moves_policy h
  have hpolicy := Policy.step_moves he
  refine ⟨Policy.inv_moves hpolicy hsound.policy, measured_moves h hsound.policy hsound.measured,
    fresh_moves h hsound.fresh, fun hwas' => ?_⟩
  rw [hwas] at hwas'
  rw [← State.finished_erase (c := c)] at hwas' ⊢
  exact Policy.finished_moves hpolicy hwas'

/-- So it holds in every run. -/
theorem sound_reachable (h : (system n c).Reachable System.anyEnv r) : Sound c r :=
  h.invariant (I := Sound c) (sound_init c) fun _ hsound _ hstep =>
    sound_moves (step_moves hstep).1 (step_moves hstep).2 hsound

/-! ## The properties -/

namespace State

/-- A worker that is neither idle nor gone always has something to do. -/
theorem someEnabled_of_worker {i : Fin n} (hm : (s.workers i).Measured c)
    (hnone : (s.workers i).phase ≠ .none) (hidle : (s.workers i).phase ≠ .idle) :
    s.someEnabled c := by
  refine .inr (.inr ⟨i, ?_⟩)
  cases hphase : (s.workers i).phase with
  | none => exact absurd hphase hnone
  | idle => exact absurd hphase hidle
  | starting => simp [canStarted, hphase]
  | exiting => simp [canExited, hphase]
  | killed => simp
  | busy =>
    -- a busy worker grows until it can finish
    rcases (hm.rss_le).lt_or_eq with hlt | heq
    · simp [canGrow, hphase, hlt]
    · simp [canFinish, hphase, heq]

/-- If nobody works, an idle worker can be told something, or there is room for one. -/
theorem someEnabled_of_resting (hn : 0 < n)
    (hrest : ∀ i, (s.workers i).phase = .none ∨ (s.workers i).phase = .idle)
    (hprogress : s.mode = .solo → s.solo ≠ [] ∨ s.nRunning = 1) : s.someEnabled c := by
  have hrunning : s.nRunning = 0 := countSlots_eq_zero.mpr fun i => by
    rcases hrest i with h | h <;> simp [Worker.running, h]
  -- with nobody running, the progress of Solo mode is in the queue
  have hsolo : s.mode = .solo → 0 < s.solo.length := by
    intro hmode
    have hwork := hprogress hmode
    rw [hrunning] at hwork
    exact List.length_pos_iff.mpr (hwork.resolve_right (by decide))
  -- an idle worker is told to exit or given a job, unless Solo mode comes first
  by_cases hidle : ∃ i, (s.workers i).phase = .idle
  · obtain ⟨i, hidle⟩ := hidle
    cases hfinished : s.finished with
    | true => exact .inr (.inr ⟨i, by simp [canSendExit, hfinished, hidle]⟩)
    | false =>
      cases hmode : s.mode with
      | solo =>
        have hpos := hsolo hmode
        exact .inr (.inr ⟨i, by simp [canTakeSolo, hfinished, hidle, hmode, hrunning, hpos]⟩)
      | parallel =>
        by_cases hempty : s.solo = []
        · have htodo : s.todo ≠ ∅ := by
            intro htodo
            simp [finished, htodo, hempty, hrunning] at hfinished
          have hfits : s.fitsBudget c = true := by simp [fitsBudget, hrunning]
          exact .inr (.inr ⟨i, by
            simp [canTakeTodo, hfinished, hidle, hmode, hempty, htodo, hfits]⟩)
        · have hpos := List.length_pos_iff.mpr hempty
          exact .inr (.inl (by simp [canEnterSolo, hfinished, hmode, hpos, hrunning]))
  · -- no worker at all: everything is over, or one is wanted
    have hnone : ∀ i, (s.workers i).phase = .none := fun i =>
      (hrest i).resolve_right fun h => hidle ⟨i, h⟩
    have halive : s.nAlive = 0 := countSlots_eq_zero.mpr fun i => by
      simp [Worker.alive, hnone i]
    cases hfinished : s.finished with
    | true => exact .inl (by simp [terminated, hfinished, halive])
    | false =>
      have hfree : ∀ phase, phase ≠ .none → s.nPhase phase = 0 := fun phase hphase =>
        countSlots_eq_zero.mpr fun i => by simp [hnone i, hphase.symm]
      cases hmode : s.mode with
      | solo =>
        have hroom : s.spawnable > 0 := by simp [spawnable, hmode, halive]
        exact .inr (.inr ⟨⟨0, hn⟩, by simp [canSpawn, hfinished, hnone, hroom]⟩)
      | parallel =>
        by_cases hempty : s.solo = []
        · have htodo : 0 < s.todo.card := by
            refine Finset.card_pos.mpr (Finset.nonempty_iff_ne_empty.mpr fun htodo => ?_)
            simp [finished, htodo, hempty, hrunning] at hfinished
          have hroom : s.spawnable > 0 := by
            rw [spawnable, if_neg (by simp [hmode]), if_pos (by simp [hempty]),
              hfree .starting (by decide), hfree .idle (by decide)]
            exact htodo
          exact .inr (.inr ⟨⟨0, hn⟩, by simp [canSpawn, hfinished, hnone, hroom]⟩)
        · have hpos := List.length_pos_iff.mpr hempty
          exact .inr (.inl (by simp [canEnterSolo, hfinished, hmode, hpos, hrunning]))

end State

/-- The two cases cover every state: either somebody is neither gone nor idle, or all rest. -/
theorem Sound.someEnabled (hn : 0 < n) (h : Sound c r) : r.st.someEnabled c := by
  by_cases hrest : ∀ i, (r.st.workers i).phase = .none ∨ (r.st.workers i).phase = .idle
  · exact State.someEnabled_of_resting hn hrest h.policy.progress
  · push Not at hrest
    obtain ⟨i, hnone, hidle⟩ := hrest
    exact State.someEnabled_of_worker (h.measured i) hnone hidle

/-- `complete` of the model. -/
theorem Sound.complete (h : Sound c r) (hterminated : r.st.terminated = true) :
    r.st.done ∪ r.st.errored = c.jobs := by
  simp only [State.terminated, State.finished, decide_eq_true_eq, List.length_eq_zero_iff]
    at hterminated
  obtain ⟨⟨htodo, hsolo, hzero⟩, -⟩ := hterminated
  -- with all three sources of work empty, conservation leaves only the verdicts
  have hrunning : (r.st.erase c).runningJobs = ∅ := by
    have hnone := Policy.State.nRunning_eq_zero (s := r.st.erase c).mp hzero
    refine Finset.eq_empty_of_forall_notMem fun j hj => ?_
    obtain ⟨i, -, hi⟩ := Finset.mem_biUnion.mp hj
    rw [hnone i] at hi
    cases hi
  have hjobs := h.policy.jobs_eq
  rw [hrunning] at hjobs
  show r.st.done ∪ r.st.errored = (r.st.erase c).jobs
  rw [hjobs]
  show r.st.done ∪ r.st.errored = r.st.todo ∪ r.st.solo.toFinset ∪ ∅ ∪ r.st.done ∪ r.st.errored
  rw [htodo, hsolo]
  simp

/-- **`inv` of the model holds in every run**, whatever the constants are. -/
theorem inv_reachable (hn : 0 < n) (h : (system n c).Reachable System.anyEnv r) : Inv c r := by
  have hsound := sound_reachable h
  have hpolicy := hsound.policy
  refine ⟨⟨hpolicy.jobs_eq, hpolicy.card_eq⟩, fun hmode => ⟨hpolicy.alone hmode, fun i hi => ?_⟩,
    -- part by part, the fresh heap of Solo mode and the ghost from `Sound`
    fun hmode => ?_, ⟨fun hpos => ?_, hsound.wasFinished⟩, fun i => (hpolicy.consistent i).symm,
    hsound.someEnabled hn, hsound.complete⟩
  · exact hsound.fresh hmode i (Policy.Worker.alive_of_running (w := (r.st.workers i).erase) hi)
  · exact (hpolicy.progress hmode).imp_left List.length_pos_iff.mpr
  · obtain ⟨i, hi⟩ := countSlots_pos.mp hpos
    rw [← State.finished_erase (c := c)]
    exact hpolicy.exiting i (of_decide_eq_true hi)

/-- A run in which `huge` is killed, and killed again when it is tried alone. -/
def killedTwice : List (Event String 3) :=
  [.spawn 0, .started 0, .takeTodo 0 "huge", .grow 0, .sample 0, .killedEof 0, .enterSolo,
    .spawn 1, .started 1, .takeSolo 1, .grow 1, .sample 1, .killedEof 1]

/-- The invariant in a state with an error in it. -/
theorem inv_reachable_killedTwice :
    Inv main ((system 3 main).after System.anyCheck killedTwice (by rfl)) :=
  inv_reachable (by decide) (System.reachable_after (fun _ _ _ => trivial) killedTwice (by rfl))

/-! ### Without the kernel -/

/-- While the kernel kills nobody, a job is an error only if it alone is too large. -/
structure Huge (c : Constants J) (s : State J n) : Prop where
  gone : ∀ i, (s.workers i).phase = .none → (s.workers i).rss = 0
  killed : s.mode = .solo → ∀ i, (s.workers i).phase = .killed →
    ∀ job, (s.workers i).job = some job → c.cost job + c.base > c.budget
  errored : ∀ job ∈ s.errored, c.cost job + c.base > c.budget

namespace Huge

omit [DecidableEq J] in
/-- One slot is rewritten, and it is not a killed one. -/
theorem setW {i : Fin n} {x : Worker J} (h : Huge c s) (hgone : x.phase = .none → x.rss = 0)
    (hkilled : x.phase ≠ .killed) : Huge c (s.setW i x) where
  gone := State.forall_setW (p := fun w => w.phase = .none → w.rss = 0) hgone h.gone
  killed hmode := State.forall_setW
    (p := fun w => w.phase = .killed → ∀ job, w.job = some job → c.cost job + c.base > c.budget)
    (fun hx => absurd hx hkilled) (h.killed hmode)
  errored := h.errored

omit [DecidableEq J] in
/-- Who is alone has all the memory. -/
theorem totalRss_eq {i : Fin n} (h : Huge c s) (halone : s.nAlive ≤ 1)
    (hi : (s.workers i).alive = true) : s.totalRss = (s.workers i).rss := by
  refine Finset.sum_eq_single i (fun k _ hk => ?_) fun hnot => absurd (Finset.mem_univ i) hnot
  refine h.gone k (by_contra fun hne => hk ?_)
  exact countSlots_le_one halone (by simp [Worker.alive, hne]) hi

/-- The largest worker of Solo mode, over the budget. -/
theorem evicted {i : Fin n} (h : Huge c s) (hsound : (s.erase c).Inv)
    (hm : (s.workers i).Measured c) (hfresh : Fresh c s) (hmode : s.mode = .solo)
    (hover : s.totalRss > c.budget) (hi : (s.workers i).phase = .busy) {job : J}
    (hjob : (s.workers i).job = some job) : c.cost job + c.base > c.budget := by
  have halive : (s.workers i).alive = true := by simp [Worker.alive, hi]
  rw [h.totalRss_eq (hsound.alone hmode) halive] at hover
  have hle := hm.rss_le
  rw [Worker.peak, hfresh hmode i halive, hjob] at hle
  show c.budget < c.cost job + c.base
  exact hover.trans_le (hle.trans_eq (Nat.add_comm _ _))

end Huge

/-- Each move keeps it. The errors grow only at the EOF of a solo job, whose worker was over
the budget when it was killed. -/
theorem huge_moves (hext : c.externalKills = 0) (h : Moves c s s') (hsound : (s.erase c).Inv)
    (hm : ∀ i, (s.workers i).Measured c) (hfresh : Fresh c s) (hhuge : Huge c s) : Huge c s' := by
  cases h with
  -- a new worker or one that changes its phase is not killed
  | spawn => exact hhuge.setW (by intro h; cases h) (by intro h; cases h)
  | sendExit => exact hhuge.setW (by intro h; cases h) (by intro h; cases h)
  | enterSolo => exact ⟨fun _ _ => rfl, fun _ _ h => (by cases h), hhuge.errored⟩
  | @takeSolo i =>
    rw [State.doTakeSolo]
    split
    · exact hhuge
    · next job _ =>
      have hslot := hhuge.setW (i := i) (x := (s.workers i).take job) (by intro h; cases h)
        (by intro h; cases h)
      exact ⟨hslot.gone, hslot.killed, hslot.errored⟩
  | @takeTodo i job =>
    have hslot := hhuge.setW (i := i) (x := (s.workers i).take job) (by intro h; cases h)
      (by intro h; cases h)
    exact ⟨hslot.gone, hslot.killed, hslot.errored⟩
  | started => exact hhuge.setW (by intro h; cases h) (by intro h; cases h)
  | restarted | exited => exact hhuge.setW (fun _ => rfl) (by intro h; cases h)
  | @finish i =>
    let retained := (s.workers i).heap + ((s.workers i).peak c - (s.workers i).heap) / 2
    have hslot := hhuge.setW (i := i)
      (x := { phase := .starting, heap := retained, rss := retained }) (by intro h; cases h)
      (by intro h; cases h)
    exact ⟨hslot.gone, fun hmode => (by cases hmode), hslot.errored⟩
  | @killedEof i hguard =>
    -- without external kills it was the sample that killed this worker
    simp only [State.canKilledEof, hext, Nat.not_lt_zero, and_false, or_false,
      decide_eq_true_eq] at hguard
    have hslot := hhuge.setW (i := i) (x := {}) (fun _ => rfl) (by intro h; cases h)
    rw [State.doKilledEof]
    dsimp only
    split
    · exact ⟨hslot.gone, fun hmode => (by cases hmode), hslot.errored⟩
    · split
      · next hmode =>
        refine ⟨hslot.gone, fun hmode => (by cases hmode), fun job hjob => ?_⟩
        rcases Finset.mem_union.mp hjob with hold | hnew
        · exact hhuge.errored job hold
        · exact hhuge.killed hmode i hguard job (Option.mem_toFinset.mp hnew)
      · exact ⟨hslot.gone, fun hmode => (by cases hmode), hslot.errored⟩
  | @grow i hguard =>
    simp only [State.canGrow, decide_eq_true_eq] at hguard
    refine hhuge.setW ?_ ?_
    · intro hnone
      rw [hguard.1] at hnone
      cases hnone
    · show (s.workers i).phase ≠ .killed
      rw [hguard.1]
      decide
  | @sample victim =>
    rw [State.doSample]
    dsimp only
    split
    · next hover =>
      refine ⟨?_, fun hmode => ?_, hhuge.errored⟩
      · exact State.forall_setW (p := fun w => w.phase = .none → w.rss = 0)
          (by intro h; cases h) hhuge.gone
      · -- the victim of a sample in Solo mode held the whole budget alone
        refine State.forall_setW (p := fun w => w.phase = .killed →
          ∀ job, w.job = some job → c.cost job + c.base > c.budget) ?_ (hhuge.killed hmode)
        exact fun _ job hjob => hhuge.evicted hsound (hm victim) hfresh hmode hover.1 hover.2 hjob
    · exact ⟨hhuge.gone, hhuge.killed, hhuge.errored⟩

/-- **`onlyHugeErrors`**: without the kernel OOM killer only a job larger than the whole
budget can end up as an error. -/
theorem onlyHugeErrors (hext : c.externalKills = 0)
    (h : (system n c).Reachable System.anyEnv r) {job : J} (hjob : job ∈ r.st.errored) :
    c.cost job + c.base > c.budget := by
  have hhuge : Huge c r.st := h.invariant (I := fun r => Huge c r.st)
    ⟨fun _ _ => rfl, fun hmode => (by cases hmode), fun _ hmem => (by cases hmem)⟩
    fun hr hhuge _ hstep => huge_moves hext (step_moves hstep).1 (sound_reachable hr).policy
      (sound_reachable hr).measured (sound_reachable hr).fresh hhuge
  exact hhuge.errored job hjob

/-- In this run the job `huge` is an error, and it is larger than the budget. -/
theorem onlyHugeErrors_killedTwice : noOomKiller.cost "huge" + noOomKiller.base > 3000 := by
  have hrun : (system 3 noOomKiller).Reachable System.anyEnv
      ((system 3 noOomKiller).after System.anyCheck killedTwice (by rfl)) :=
    System.reachable_after (fun _ _ _ => trivial) killedTwice (by rfl)
  exact onlyHugeErrors (by rfl) hrun (by decide +kernel)

end Quint

end NixEvalJobs
