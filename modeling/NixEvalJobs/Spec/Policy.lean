import NixEvalJobs.Lib.Simulation
import NixEvalJobs.Scheduler.State

/-!
# Spec — the scheduling policy

What the scheduler may do with its workers and jobs, whatever the memory of the
processes turns out to be: resident memory is read from the environment, and so is
the choice among the moves. `spec/scheduler.qnt` restricts this further, by a model
of how memory grows; the class restricts it to the order of its passes. Jobs may
bring new jobs when they are finished.

* `Inv` — every known job is in one place, Solo mode is for one worker and has work,
  and nobody is told to exit before everything is done.
* `inv_of_reachable` — it holds in every run.
-/

namespace NixEvalJobs

namespace Policy

variable {J : Type} {n : Nat}

/-! ## States -/

/-- A slot, with memory in the unit of the budget. -/
structure Worker (J : Type) where
  phase : Phase := .none
  job : Option J := none
  rss : Nat := 0
  startRss : Nat := 0

/-- A pool with its queues, and the verdicts on jobs. -/
structure State (J : Type) (n : Nat) where
  workers : Fin n → Worker J
  jobs : Finset J        -- the known ones
  todo : Finset J
  solo : List J
  mode : Mode
  estimate : Nat
  done : Finset J
  errored : Finset J

namespace Worker

/-- There is a process in the slot. -/
def alive (w : Worker J) : Bool := w.phase ≠ .none

/-- A job is in flight, also when the process has been killed. -/
def running (w : Worker J) : Bool := w.phase = .busy ∨ w.phase = .killed

/-- How much the worker has grown over its job. -/
def growth (w : Worker J) : Nat := w.rss - w.startRss

/-- The slot has the job. -/
def holds [DecidableEq J] (j : J) (w : Worker J) : Bool := w.job = some j

/-- Another phase, with everything else as it was. -/
def enter (w : Worker J) (phase : Phase) : Worker J := { w with phase := phase }

/-- A worker that has just been given a job. -/
def take (w : Worker J) (job : J) : Worker J :=
  { w with phase := .busy, job := some job, startRss := w.rss }

/-- A new reading of the memory, if there is a process to read it of. -/
def read (w : Worker J) (rss : Nat) : Worker J := if w.alive then { w with rss := rss } else w

/-- `phasesConsistent`: a job is what a running worker has. -/
def Consistent (w : Worker J) : Prop := w.job.isSome = w.running

end Worker

namespace State

variable (s : State J n)

/-- How many jobs are in flight. -/
def nRunning : Nat := countSlots Worker.running s.workers

/-- How many slots have a process. -/
def nAlive : Nat := countSlots Worker.alive s.workers

/-- How many workers are in a phase. -/
def nPhase (phase : Phase) : Nat := countSlots (fun w => w.phase = phase) s.workers

/-- What the workers hold together. -/
def totalRss : Nat := ∑ i, (s.workers i).rss

/-- Nothing is queued and nothing runs. -/
def finished [DecidableEq J] : Bool := s.todo = ∅ ∧ s.solo = [] ∧ s.nRunning = 0

/-- Every running job and one more may grow by `estimate`; `own` is what the collector
itself needs. -/
def fitsBudget (budget own : Nat) : Bool :=
  s.nRunning = 0 ∨ own + s.totalRss + (s.nRunning + 1) * s.estimate ≤ budget

/-- The largest growth of a running job. -/
def learned : Nat :=
  Finset.univ.sup fun i => if (s.workers i).running then (s.workers i).growth else 0

/-- `v` is busy, and no busy worker holds more. -/
def isLargestBusy (v : Fin n) : Bool :=
  (s.workers v).phase = .busy ∧
    ∀ i, (s.workers i).phase = .busy → (s.workers i).rss ≤ (s.workers v).rss

/-- Assignment to a slot. -/
def setW (i : Fin n) (w : Worker J) : State J n :=
  { s with workers := Function.update s.workers i w }

end State

/-! ## Slots -/

namespace Worker

variable {w : Worker J}

/-- A busy worker runs. -/
theorem running_of_busy (h : w.phase = .busy) : w.running = true := by simp [running, h]

/-- The phases without a job in flight. -/
theorem running_eq_false (hb : w.phase ≠ .busy) (hk : w.phase ≠ .killed) : w.running = false := by
  simp [running, hb, hk]

/-- Only a process can run. -/
theorem alive_of_running (h : w.running = true) : w.alive = true := by
  rw [running, decide_eq_true_eq] at h
  rcases h with h | h <;> simp [alive, h]

/-- A reading changes the memory of a worker and nothing else, so whatever does not look at
the memory is the same before and after. -/
theorem read_eq (w : Worker J) (r : Nat) : w.read r = { w with rss := (w.read r).rss } := by
  rw [read]
  split <;> rfl

/-- It runs as before, -/
theorem running_read (w : Worker J) (r : Nat) : (w.read r).running = w.running := by
  rw [read_eq]
  rfl

/-- is as alive as before, -/
theorem alive_read (w : Worker J) (r : Nat) : (w.read r).alive = w.alive := by
  rw [read_eq]
  rfl

/-- has the job it had, -/
theorem job_read (w : Worker J) (r : Nat) : (w.read r).job = w.job := by
  rw [read_eq]

/-- and no other one, -/
theorem holds_read [DecidableEq J] (j : J) (w : Worker J) (r : Nat) :
    (w.read r).holds j = w.holds j := by
  rw [holds, job_read, holds]

/-- in the same phase. -/
theorem phase_read (w : Worker J) (r : Nat) : (w.read r).phase = w.phase := by
  rw [read_eq]

/-- A worker that does not run has no job. -/
theorem Consistent.job_eq_none {w : Worker J} (h : w.Consistent) (hw : w.running = false) :
    w.job = none := by
  rw [Consistent, hw, Option.isSome_eq_false_iff, Option.isNone_iff_eq_none] at h
  exact h

end Worker

namespace State

variable {s : State J n}

/-- Assignment to a slot changes the number of running jobs by that slot; the two sides keep
clear of subtraction. -/
theorem nRunning_setW (s : State J n) (i : Fin n) (w : Worker J) :
    (s.setW i w).nRunning + (s.workers i).running.toNat = s.nRunning + w.running.toNat :=
  countSlots_update _ _ _ _

/-- The same for the slots with a process. -/
theorem nAlive_setW (s : State J n) (i : Fin n) (w : Worker J) :
    (s.setW i w).nAlive + (s.workers i).alive.toNat = s.nAlive + w.alive.toNat :=
  countSlots_update _ _ _ _

/-- Nothing runs exactly when no slot does. -/
theorem nRunning_eq_zero : s.nRunning = 0 ↔ ∀ i, (s.workers i).running = false :=
  countSlots_eq_zero

/-- What `setW` leaves in the slot, -/
theorem workers_setW_self (s : State J n) (i : Fin n) (w : Worker J) :
    (s.setW i w).workers i = w := Function.update_self ..

/-- and in the others. -/
theorem workers_setW_of_ne {i j : Fin n} (h : j ≠ i) (w : Worker J) :
    (s.setW i w).workers j = s.workers j := Function.update_of_ne h ..

/-- What holds of the new worker and of the other ones holds of all. -/
theorem forall_setW {p : Worker J → Prop} {i : Fin n} {w : Worker J} (hw : p w)
    (h : ∀ j, p (s.workers j)) (j : Fin n) : p ((s.setW i w).workers j) := by
  by_cases hj : j = i
  · rw [hj, workers_setW_self]
    exact hw
  · rw [workers_setW_of_ne hj]
    exact h j

end State

variable [DecidableEq J]

/-! ## Moves -/

inductive Event (J : Type) (n : Nat) where
  /-- A process is started, and holds this much. -/
  | spawn (i : Fin n) (rss : Nat)
  | sendExit (i : Fin n)
  | enterSolo
  | takeSolo (i : Fin n) (job : J)
  /-- `own` is what the collector itself holds at that moment. -/
  | takeTodo (i : Fin n) (job : J) (own : Nat)
  | started (i : Fin n)
  | restarted (i : Fin n)
  /-- The worker answers; `children` are the jobs the answer brings. -/
  | finish (i : Fin n) (rss : Nat) (children : Finset J)
  | exited (i : Fin n)
  | killedEof (i : Fin n)
  /-- Memory is read without any decision. -/
  | observe (rss : Fin n → Nat)
  | sample (own : Nat) (victim : Fin n)

namespace State

variable (s : State J n)

/-- A new worker in an empty slot. -/
def doSpawn (i : Fin n) (rss : Nat) : State J n := s.setW i { phase := .starting, rss := rss }

/-- All workers are dropped, so that the first job tried alone finds a fresh one. -/
def doEnterSolo : State J n := { s with workers := fun _ => {}, mode := .solo }

/-- The job evicted last is tried alone. -/
def doTakeSolo (i : Fin n) (job : J) : State J n :=
  { s.setW i ((s.workers i).take job) with solo := s.solo.dropLast }

/-- A job that has not been tried yet. -/
def doTakeTodo (i : Fin n) (job : J) : State J n :=
  { s.setW i ((s.workers i).take job) with todo := s.todo.erase job }

/-- The worker goes on without a change of its job. -/
def doEnter (i : Fin n) (phase : Phase) : State J n := s.setW i ((s.workers i).enter phase)

/-- The worker is gone, and had no job. -/
def doReset (i : Fin n) : State J n := s.setW i {}

/-- New readings of the memory of the live workers. -/
def doObserve (rss : Fin n → Nat) : State J n :=
  { s with workers := fun i => (s.workers i).read (rss i) }

/-- A finished job: the worker starts its next round. -/
def doFinish (i : Fin n) (rss : Nat) (children : Finset J) : State J n :=
  { s.setW i { phase := .starting, rss := rss } with
    jobs := s.jobs ∪ children
    todo := s.todo ∪ children
    estimate := max (s.estimate * 98 / 100) (rss - (s.workers i).startRss)
    done := s.done ∪ (s.workers i).job.toFinset
    mode := .parallel }

/-- A killed job is tried again alone, once. -/
def doKilledEof (i : Fin n) : State J n :=
  let job := if (s.workers i).running then (s.workers i).job else none
  { s.setW i {} with
    solo := if s.mode = .solo then s.solo else s.solo ++ job.toList
    errored := if s.mode = .solo then s.errored ∪ job.toFinset else s.errored
    mode := .parallel }

/-- `estimate` learns from the jobs in flight; over the budget the largest one is killed. -/
def doSample (budget own : Nat) (victim : Fin n) : State J n :=
  let s' := { s with estimate := max s.estimate s.learned }
  if budget < own + s.totalRss ∧ (s.workers victim).phase = .busy then
    s'.doEnter victim .killed
  else s'

end State

open State in
/-- A move, if its guard holds. -/
def step (budget : Nat) (s : State J n) : Event J n → Option (State J n)
  | .spawn i rss =>
    if s.finished = false ∧ (s.workers i).phase = .none ∧ (s.mode = .solo → s.nAlive = 0) then
      some (s.doSpawn i rss)
    else none
  | .sendExit i =>
    if s.finished = true ∧ (s.workers i).phase = .idle then some (s.doEnter i .exiting) else none
  | .enterSolo =>
    if s.mode = .parallel ∧ s.solo ≠ [] ∧ s.nRunning = 0 then some s.doEnterSolo else none
  | .takeSolo i job =>
    if (s.workers i).phase = .idle ∧ s.mode = .solo ∧ s.nRunning = 0 ∧
        s.solo.getLast? = some job then
      some (s.doTakeSolo i job)
    else none
  | .takeTodo i job own =>
    if (s.workers i).phase = .idle ∧ s.mode = .parallel ∧ s.solo = [] ∧ job ∈ s.todo ∧
        s.fitsBudget budget own = true then
      some (s.doTakeTodo i job)
    else none
  | .started i =>
    if (s.workers i).phase = .starting then some (s.doEnter i .idle) else none
  | .restarted i => if (s.workers i).phase = .starting then some (s.doReset i) else none
  | .finish i rss children =>
    if (s.workers i).phase = .busy ∧ Disjoint children s.jobs then
      some (s.doFinish i rss children)
    else none
  | .exited i => if (s.workers i).phase = .exiting then some (s.doReset i) else none
  | .killedEof i =>
    if (s.workers i).alive = true ∧ (s.workers i).phase ≠ .exiting then
      some (s.doKilledEof i)
    else none
  | .observe rss => some (s.doObserve rss)
  | .sample own victim =>
    if s.isLargestBusy victim = true ∨ s.nPhase .busy = 0 then
      some (s.doSample budget own victim)
    else none

/-- The start: `jobs` are to be done, and there is no worker. -/
def init (n : Nat) (jobs : Finset J) (estimate : Nat) : State J n where
  workers := fun _ => {}
  jobs
  todo := jobs
  solo := []
  mode := .parallel
  estimate
  done := ∅
  errored := ∅

/-- A system without an environment: what the class reads from its own comes with the events. -/
def system (budget : Nat) (jobs : Finset J) (estimate : Nat) :
    System (State J n) (Event J n) where
  init := init n jobs estimate
  step := step budget

/-! ## The invariant -/

namespace State

variable (s : State J n)

/-- In how many places a job is. -/
def places (j : J) : Nat :=
  (decide (j ∈ s.todo)).toNat + s.solo.count j + countSlots (Worker.holds j) s.workers +
    (decide (j ∈ s.done)).toNat + (decide (j ∈ s.errored)).toNat

/-- Known jobs are in one place, others nowhere; Solo mode is for one worker, and has
work; and an exiting worker means that everything is done. -/
structure Inv : Prop where
  places : ∀ j, s.places j = (decide (j ∈ s.jobs)).toNat
  consistent : ∀ i, (s.workers i).Consistent
  alone : s.mode = .solo → s.nAlive ≤ 1
  progress : s.mode = .solo → s.solo ≠ [] ∨ s.nRunning = 1
  exiting : ∀ i, (s.workers i).phase = .exiting → s.finished = true

end State

/-! ## What a move can do -/

/-- The moves with their guards. -/
inductive Moves (budget : Nat) (s : State J n) : State J n → Prop where
  | spawn {i : Fin n} {rss : Nat} : s.finished = false → (s.workers i).phase = .none →
      (s.mode = .solo → s.nAlive = 0) → Moves budget s (s.doSpawn i rss)
  | sendExit {i : Fin n} : s.finished = true → (s.workers i).phase = .idle →
      Moves budget s (s.doEnter i .exiting)
  | enterSolo : s.mode = .parallel → s.solo ≠ [] → s.nRunning = 0 → Moves budget s s.doEnterSolo
  | takeSolo {i : Fin n} {job : J} : (s.workers i).phase = .idle → s.mode = .solo →
      s.nRunning = 0 → s.solo.getLast? = some job → Moves budget s (s.doTakeSolo i job)
  | takeTodo {i : Fin n} {job : J} {own : Nat} : (s.workers i).phase = .idle →
      s.mode = .parallel → s.solo = [] → job ∈ s.todo → s.fitsBudget budget own = true →
      Moves budget s (s.doTakeTodo i job)
  | started {i : Fin n} : (s.workers i).phase = .starting → Moves budget s (s.doEnter i .idle)
  | restarted {i : Fin n} : (s.workers i).phase = .starting → Moves budget s (s.doReset i)
  | finish {i : Fin n} {rss : Nat} {children : Finset J} : (s.workers i).phase = .busy →
      Disjoint children s.jobs → Moves budget s (s.doFinish i rss children)
  | exited {i : Fin n} : (s.workers i).phase = .exiting → Moves budget s (s.doReset i)
  | killedEof {i : Fin n} : (s.workers i).alive = true → (s.workers i).phase ≠ .exiting →
      Moves budget s (s.doKilledEof i)
  | observe {rss : Fin n → Nat} : Moves budget s (s.doObserve rss)
  | sample {own : Nat} {victim : Fin n} : s.isLargestBusy victim = true ∨ s.nPhase .busy = 0 →
      Moves budget s (s.doSample budget own victim)

variable {budget : Nat} {s s' : State J n}

/-- The inversion of `step`: later proofs know it by this alone. -/
theorem step_moves {e : Event J n} (h : step budget s e = some s') : Moves budget s s' := by
  cases e with
  -- the one move without a guard
  | observe rss =>
    obtain rfl := Option.some.inj h
    exact .observe
  | spawn | sendExit | enterSolo | takeSolo | takeTodo | started | restarted | finish | exited
  | killedEof | sample =>
    obtain ⟨hguard, hs'⟩ := Option.ite_none_right_eq_some.mp h
    obtain rfl := Option.some.inj hs'
    first
      | exact .spawn hguard.1 hguard.2.1 hguard.2.2
      | exact .sendExit hguard.1 hguard.2
      | exact .enterSolo hguard.1 hguard.2.1 hguard.2.2
      | exact .takeSolo hguard.1 hguard.2.1 hguard.2.2.1 hguard.2.2.2
      | exact .takeTodo hguard.1 hguard.2.1 hguard.2.2.1 hguard.2.2.2.1 hguard.2.2.2.2
      | exact .started hguard
      | exact .restarted hguard
      | exact .finish hguard.1 hguard.2
      | exact .exited hguard
      | exact .killedEof hguard.1 hguard.2
      | exact .sample hguard

/-! ## Being finished -/

namespace State

/-- `finished` by its conjuncts. -/
theorem finished_iff : s.finished = true ↔ s.todo = ∅ ∧ s.solo = [] ∧ s.nRunning = 0 := by
  simp [finished]

/-- Rewriting a slot that does not run by one that does not run. -/
theorem finished_setW {i : Fin n} {w : Worker J} (hold : (s.workers i).running = false)
    (hnew : w.running = false) : (s.setW i w).finished = s.finished := by
  have hcount := nRunning_setW s i w
  rw [hold, hnew] at hcount
  rw [finished, finished, show (s.setW i w).nRunning = s.nRunning by simpa using hcount]
  rfl

/-- Nobody runs once everything is finished. -/
theorem phase_of_finished (h : s.finished = true) (i : Fin n) :
    (s.workers i).phase ≠ .busy ∧ (s.workers i).phase ≠ .killed := by
  have hrunning := nRunning_eq_zero.mp (finished_iff.mp h).2.2 i
  simpa [Worker.running] using hrunning

end State

/-- **What is finished stays finished.** -/
theorem finished_moves (h : Moves budget s s') (hf : s.finished = true) : s'.finished = true := by
  obtain ⟨htodo, hsolo, hrunning⟩ := State.finished_iff.mp hf
  have hidle := State.nRunning_eq_zero.mp hrunning
  cases h with
  | spawn hunfinished => rw [hf] at hunfinished; cases hunfinished
  | enterSolo _ hne => exact absurd hsolo hne
  | takeSolo _ _ _ hlast => rw [hsolo] at hlast; cases hlast
  | takeTodo _ _ _ hjob => rw [htodo] at hjob; cases hjob
  | @finish i _ _ hbusy => exact absurd hbusy (State.phase_of_finished hf i).1
  | @sendExit i _ hphase | @started i hphase =>
    -- a slot that does not run goes on not running
    refine (State.finished_setW (hidle i) ?_).trans hf
    exact Worker.running_eq_false (by simp [Worker.enter]) (by simp [Worker.enter])
  | restarted | exited => exact (State.finished_setW (hidle _) (by rfl)).trans hf
  | @killedEof i _ _ =>
    -- there was no job to give back
    have hslot := State.finished_setW (w := {}) (hidle i) rfl
    rw [State.doKilledEof, hidle i]
    refine State.finished_iff.mpr ⟨htodo, ?_, (State.finished_iff.mp (hslot.trans hf)).2.2⟩
    simp [hsolo]
  | observe =>
    refine State.finished_iff.mpr ⟨htodo, hsolo, State.nRunning_eq_zero.mpr fun i => ?_⟩
    exact (Worker.running_read _ _).trans (hidle i)
  | @sample own victim _ =>
    rw [State.doSample, if_neg fun hc => (State.phase_of_finished hf victim).1 hc.2]
    exact hf

/-! ## Preservation -/

/-- A worker has a job exactly while it runs, whatever move is made. -/
theorem consistent_moves (h : Moves budget s s') (hjob : ∀ i, (s.workers i).Consistent)
    (i : Fin n) : (s'.workers i).Consistent := by
  cases h with
  | spawn | restarted | exited | finish | killedEof | takeSolo | takeTodo =>
    exact State.forall_setW (p := Worker.Consistent) (by rfl) hjob i
  | enterSolo => rfl
  | @sendExit k _ hphase | @started k hphase =>
    -- an idle or starting worker has no job, and gets none
    refine State.forall_setW (p := Worker.Consistent) ?_ hjob i
    have hnone := (hjob k).job_eq_none
      (Worker.running_eq_false (by simp [hphase]) (by simp [hphase]))
    rw [Worker.Consistent, Worker.enter, hnone]
    rfl
  | observe =>
    show (Worker.read _ _).Consistent
    rw [Worker.Consistent, Worker.job_read, Worker.running_read]
    exact hjob i
  | @sample own victim _ =>
    rw [State.doSample]
    split
    · next hover =>
      refine State.forall_setW (p := Worker.Consistent) ?_ hjob i
      have hk := hjob victim
      rw [Worker.Consistent, Worker.running_of_busy hover.2] at hk
      exact hk
    · exact hjob i

/-- An exiting worker was told so before, or just now. -/
theorem exiting_moves (h : Moves budget s s') {i : Fin n}
    (hexiting : (s'.workers i).phase = .exiting) :
    s.finished = true ∨ (s.workers i).phase = .exiting := by
  -- a slot whose new worker is not exiting was not told anything
  have hslot : ∀ {k : Fin n} {w : Worker J}, w.phase ≠ .exiting →
      ((s.setW k w).workers i).phase = .exiting → (s.workers i).phase = .exiting := by
    intro k w hw hphase
    by_cases hk : i = k
    · rw [hk, State.workers_setW_self] at hphase
      exact absurd hphase hw
    · rwa [State.workers_setW_of_ne hk] at hphase
  cases h with
  | sendExit hfinished => exact .inl hfinished
  | enterSolo => cases hexiting
  | spawn | takeSolo | takeTodo | started | restarted | finish | exited | killedEof =>
    exact .inr (hslot (by simp [Worker.enter, Worker.take]) hexiting)
  | observe => exact .inr ((Worker.phase_read _ _).symm.trans hexiting)
  | sample =>
    rw [State.doSample] at hexiting
    split at hexiting
    · exact .inr (hslot (by simp [Worker.enter]) hexiting)
    · exact .inr hexiting

/-- Solo mode keeps to one worker, and is left when its job ends. -/
theorem solo_moves (h : Moves budget s s')
    (hsolo : s.mode = .solo → s.nAlive ≤ 1 ∧ (s.solo ≠ [] ∨ s.nRunning = 1))
    (hmode : s'.mode = .solo) : s'.nAlive ≤ 1 ∧ (s'.solo ≠ [] ∨ s'.nRunning = 1) := by
  -- a slot that stays alive, and runs as before
  have hsame : ∀ {i : Fin n} {w : Worker J}, s.mode = .solo → w.alive = (s.workers i).alive →
      w.running = (s.workers i).running →
      (s.setW i w).nAlive ≤ 1 ∧ (s.solo ≠ [] ∨ (s.setW i w).nRunning = 1) := by
    intro i w hm halive hrunning
    have hcountA := State.nAlive_setW s i w
    have hcountR := State.nRunning_setW s i w
    rw [halive] at hcountA
    rw [hrunning] at hcountR
    obtain ⟨hle, hwork⟩ := hsolo hm
    exact ⟨by omega, hwork.imp_right fun hone => by omega⟩
  cases h with
  | @spawn i rss _ hnone halone =>
    -- the pool was empty, so this is the one worker
    have hcountA := State.nAlive_setW s i { phase := .starting, rss := rss }
    have hcountR := State.nRunning_setW s i { phase := .starting, rss := rss }
    rw [halone hmode] at hcountA
    rw [Worker.running_eq_false (by simp [hnone]) (by simp [hnone])] at hcountR
    have hle := Bool.toNat_le (({ phase := .starting, rss := rss } : Worker J).alive)
    refine ⟨?_, (hsolo hmode).2.imp_right fun hone => hcountR.trans hone⟩
    show (s.setW i _).nAlive ≤ 1
    omega
  | sendExit hfinished =>
    -- Solo mode has work
    obtain ⟨-, hnil, hzero⟩ := State.finished_iff.mp hfinished
    rcases (hsolo hmode).2 with hne | hone
    · exact absurd hnil hne
    · rw [hzero] at hone
      cases hone
  | enterSolo _ hne =>
    -- an empty pool, and a queue that made the switch worth it
    exact ⟨by simp [State.nAlive, State.doEnterSolo, countSlots, Worker.alive], .inl hne⟩
  | @takeSolo i job hidle _ hzero _ =>
    -- the queue may be empty now, but the job runs
    have hcountA := State.nAlive_setW s i ((s.workers i).take job)
    have hcountR := State.nRunning_setW s i ((s.workers i).take job)
    have halive : (s.workers i).alive = true := by simp [Worker.alive, hidle]
    rw [halive] at hcountA
    rw [Worker.running_eq_false (by simp [hidle]) (by simp [hidle]), hzero] at hcountR
    have hle := (hsolo hmode).1
    exact ⟨(Nat.add_right_cancel hcountA).trans_le hle, .inr hcountR⟩
  | takeTodo _ hparallel => rw [show s.mode = .solo from hmode] at hparallel; cases hparallel
  | started hphase =>
    exact hsame hmode (by simp [Worker.alive, Worker.enter, hphase])
      (by simp [Worker.running, Worker.enter, hphase])
  | @restarted i hphase | @exited i hphase =>
    have hcountA := State.nAlive_setW s i {}
    have hcountR := State.nRunning_setW s i {}
    rw [Worker.running_eq_false (by simp [hphase]) (by simp [hphase])] at hcountR
    obtain ⟨hle, hwork⟩ := hsolo hmode
    have hdead : (({} : Worker J).alive).toNat = 0 := rfl
    refine ⟨?_, hwork.imp_right fun hone => hcountR.trans hone⟩
    show (s.setW i _).nAlive ≤ 1
    omega
  | finish | killedEof => cases hmode
  | @observe rss =>
    have hA : (s.doObserve rss).nAlive = s.nAlive :=
      countSlots_congr fun i => Worker.alive_read _ _
    have hR : (s.doObserve rss).nRunning = s.nRunning :=
      countSlots_congr fun i => Worker.running_read _ _
    rw [hA, hR]
    exact hsolo hmode
  | @sample own victim _ =>
    rw [State.doSample] at hmode ⊢
    split at hmode
    · next hover =>
      rw [if_pos hover]
      exact hsame hmode (by simp [Worker.alive, Worker.enter, hover.2])
        (by simp [Worker.running, Worker.enter, hover.2])
    · next hover =>
      rw [if_neg hover]
      exact hsolo hmode

/-! ### Where the jobs are -/

namespace State

/-- How many slots have a job. -/
def holders (s : State J n) (j : J) : Nat := countSlots (Worker.holds j) s.workers

/-- Assignment to a slot changes the number of holders by that slot. -/
theorem holders_setW (s : State J n) (i : Fin n) (w : Worker J) (j : J) :
    (s.setW i w).holders j + ((s.workers i).holds j).toNat = s.holders j + (w.holds j).toNat :=
  countSlots_update _ _ _ _

/-- The sum, for a known job and for an unknown one. -/
theorem places_eq (s : State J n) (j : J) : s.places j =
    (decide (j ∈ s.todo)).toNat + s.solo.count j + s.holders j + (decide (j ∈ s.done)).toNat +
      (decide (j ∈ s.errored)).toNat := rfl

/-- A job that a slot has is nowhere else. -/
theorem of_holds {i : Fin n} {j : J} (h : ∀ j, s.places j = (decide (j ∈ s.jobs)).toNat)
    (hi : (s.workers i).job = some j) :
    j ∉ s.todo ∧ s.solo.count j = 0 ∧ s.holders j = 1 ∧ j ∉ s.done ∧ j ∉ s.errored := by
  -- the sum over the places is at most one, and the slot takes it
  have hpos : 0 < s.holders j := countSlots_pos.mpr ⟨i, by simp [Worker.holds, hi]⟩
  have hone := (s.places_eq j).symm.trans (h j)
  have hle := Bool.toNat_le (decide (j ∈ s.jobs))
  refine ⟨fun hmem => ?_, by omega, by omega, fun hmem => ?_, fun hmem => ?_⟩
  · rw [decide_eq_true hmem, Bool.toNat_true] at hone
    omega
  · rw [decide_eq_true hmem, Bool.toNat_true] at hone
    omega
  · rw [decide_eq_true hmem, Bool.toNat_true] at hone
    omega

end State

/-- Adding what was not there. -/
theorem toNat_mem_union {A B : Finset J} {j : J} (h : j ∈ B → j ∉ A) :
    (decide (j ∈ A ∪ B)).toNat = (decide (j ∈ A)).toNat + (decide (j ∈ B)).toNat := by
  by_cases hB : j ∈ B
  · simp [hB, h hB]
  · simp [hB]

/-- The job of a slot that finishes moves to those that are done, and its children come to
those that are still to do. -/
theorem places_finish {i : Fin n} {rss : Nat} {children : Finset J}
    (hbusy : (s.workers i).phase = .busy) (hnew : Disjoint children s.jobs)
    (hjob : ∀ i, (s.workers i).Consistent)
    (hplaces : ∀ j, s.places j = (decide (j ∈ s.jobs)).toNat) (j : J) :
    (s.doFinish i rss children).places j =
      (decide (j ∈ (s.doFinish i rss children).jobs)).toNat := by
  have hj := (s.places_eq j).symm.trans (hplaces j)
  obtain ⟨job, hi⟩ := Option.isSome_iff_exists.mp
    ((hjob i).trans (Worker.running_of_busy hbusy))
  obtain ⟨-, -, -, hdone, -⟩ := State.of_holds hplaces hi
  have hcount := State.holders_setW s i { phase := .starting, rss := rss } j
  have hfresh : j ∈ children → j ∉ s.jobs := fun hc hmem =>
    Finset.disjoint_left.mp hnew hc hmem
  -- a child was not known before, so it was in none of the places
  have hunknown : j ∈ children → j ∉ s.todo := by
    intro hc hmem
    rw [decide_eq_true hmem, decide_eq_false (hfresh hc)] at hj
    simp at hj
  -- `done` gains what the slot loses
  have hmoved : (decide (j ∈ s.done ∪ (s.workers i).job.toFinset)).toNat =
      (decide (j ∈ s.done)).toNat + ((s.workers i).holds j).toNat := by
    rw [toNat_mem_union, Worker.holds, hi]
    · simp [eq_comm]
    · rw [hi]
      intro hmem
      obtain rfl := Option.some.inj (Option.mem_toFinset.mp hmem)
      exact hdone
  show (decide (j ∈ s.todo ∪ children)).toNat + s.solo.count j +
    (s.setW i { phase := .starting, rss := rss }).holders j +
    (decide (j ∈ s.done ∪ (s.workers i).job.toFinset)).toNat + (decide (j ∈ s.errored)).toNat =
    (decide (j ∈ s.jobs ∪ children)).toNat
  rw [toNat_mem_union hunknown, toNat_mem_union hfresh, hmoved]
  have hidle : (Worker.holds j { phase := .starting, rss := rss }).toNat = 0 := rfl
  omega

/-- The job of a killed worker comes back to `solo`, or is given up if it was alone. -/
theorem places_killedEof {i : Fin n} (hjob : ∀ i, (s.workers i).Consistent)
    (hplaces : ∀ j, s.places j = (decide (j ∈ s.jobs)).toNat) (j : J) :
    (s.doKilledEof i).places j = (decide (j ∈ (s.doKilledEof i).jobs)).toNat := by
  have hj := (s.places_eq j).symm.trans (hplaces j)
  have hcount := State.holders_setW s i {} j
  have hidle : (Worker.holds j {}).toNat = 0 := rfl
  -- the guard of the source on `running` changes nothing: the others have no job
  have hjobs : (if (s.workers i).running then (s.workers i).job else none) =
      (s.workers i).job := by
    split
    · rfl
    · next hr => exact ((hjob i).job_eq_none (by simpa using hr)).symm
  rw [State.doKilledEof, hjobs]
  by_cases hm : s.mode = .solo
  · -- alone it was, so it is given up
    have hmoved : (decide (j ∈ s.errored ∪ (s.workers i).job.toFinset)).toNat =
        (decide (j ∈ s.errored)).toNat + ((s.workers i).holds j).toNat := by
      rw [toNat_mem_union]
      · simp [Worker.holds, Option.mem_toFinset]
      · intro hmem
        exact (State.of_holds hplaces (Option.mem_toFinset.mp hmem)).2.2.2.2
    simp only [if_pos hm]
    show (decide (j ∈ s.todo)).toNat + s.solo.count j + (s.setW i {}).holders j +
      (decide (j ∈ s.done)).toNat + (decide (j ∈ s.errored ∪ (s.workers i).job.toFinset)).toNat =
      (decide (j ∈ s.jobs)).toNat
    rw [hmoved]
    omega
  · have hmoved : (s.solo ++ (s.workers i).job.toList).count j =
        s.solo.count j + ((s.workers i).holds j).toNat := by
      rw [List.count_append]
      cases hi : (s.workers i).job with
      | none => simp [Worker.holds, hi]
      | some job => by_cases heq : job = j <;> simp [Worker.holds, hi, heq]
    simp only [if_neg hm]
    show (decide (j ∈ s.todo)).toNat + (s.solo ++ (s.workers i).job.toList).count j +
      (s.setW i {}).holders j + (decide (j ∈ s.done)).toNat + (decide (j ∈ s.errored)).toNat =
      (decide (j ∈ s.jobs)).toNat
    rw [hmoved]
    omega

/-- Every known job stays in one place. -/
theorem places_moves (h : Moves budget s s') (hjob : ∀ i, (s.workers i).Consistent)
    (hplaces : ∀ j, s.places j = (decide (j ∈ s.jobs)).toNat) (j : J) :
    s'.places j = (decide (j ∈ s'.jobs)).toNat := by
  have hj := (s.places_eq j).symm.trans (hplaces j)
  -- a slot that keeps its job, or never had one
  have hkeep : ∀ {i : Fin n} {w : Worker J}, (s.workers i).job = w.job →
      (s.setW i w).places j = (decide (j ∈ s.jobs)).toNat := by
    intro i w hw
    have hcount := State.holders_setW s i w j
    rw [Worker.holds, Worker.holds, hw] at hcount
    rw [State.places_eq, Nat.add_right_cancel hcount]
    exact hj
  have hnone : ∀ i, (s.workers i).running = false → (s.workers i).job = none :=
    fun i => (hjob i).job_eq_none
  -- an idle slot that takes a job is one more holder of it
  have htake : ∀ {i : Fin n} {job : J}, (s.workers i).running = false →
      (s.setW i ((s.workers i).take job)).holders j = s.holders j + (decide (job = j)).toNat := by
    intro i job hi
    have hcount := State.holders_setW s i ((s.workers i).take job) j
    rw [Worker.holds, hnone i hi] at hcount
    simpa [Worker.holds, Worker.take] using hcount
  cases h with
  | @spawn i rss _ hphase _ =>
    exact hkeep (hnone i (Worker.running_eq_false (by simp [hphase]) (by simp [hphase])))
  -- these two leave every job where it is
  | sendExit | started => exact hkeep (by rfl)
  | @restarted i hphase | @exited i hphase =>
    exact hkeep (hnone i (Worker.running_eq_false (by simp [hphase]) (by simp [hphase])))
  | enterSolo _ _ hzero =>
    have hidle := State.nRunning_eq_zero.mp hzero
    have hholders : s.holders j = 0 := countSlots_eq_zero.mpr fun i => by
      simp [Worker.holds, hnone i (hidle i)]
    have hempty : countSlots (Worker.holds j) (fun _ : Fin n => ({} : Worker J)) = 0 :=
      countSlots_eq_zero.mpr fun _ => rfl
    show (decide (j ∈ s.todo)).toNat + s.solo.count j +
      countSlots (Worker.holds j) (fun _ : Fin n => ({} : Worker J)) +
      (decide (j ∈ s.done)).toNat + (decide (j ∈ s.errored)).toNat = (decide (j ∈ s.jobs)).toNat
    rw [hempty]
    omega
  | @takeSolo i job hidle _ hzero hlast =>
    -- the last one of `solo` moves into the slot
    have hsplit : s.solo.count j = s.solo.dropLast.count j + (decide (job = j)).toNat := by
      conv_lhs => rw [← List.dropLast_append_getLast? job hlast]
      rw [List.count_append, List.count_singleton]
      by_cases heq : job = j <;> simp [heq]
    show (decide (j ∈ s.todo)).toNat + s.solo.dropLast.count j +
      (s.setW i ((s.workers i).take job)).holders j + (decide (j ∈ s.done)).toNat +
      (decide (j ∈ s.errored)).toNat = (decide (j ∈ s.jobs)).toNat
    rw [htake (State.nRunning_eq_zero.mp hzero i)]
    omega
  | @takeTodo i job own hidle _ _ hmem _ =>
    have hsplit : (decide (j ∈ s.todo)).toNat =
        (decide (j ∈ s.todo.erase job)).toNat + (decide (job = j)).toNat := by
      by_cases heq : job = j
      · subst heq
        simp [hmem]
      · simp [heq, Ne.symm heq]
    show (decide (j ∈ s.todo.erase job)).toNat + s.solo.count j +
      (s.setW i ((s.workers i).take job)).holders j + (decide (j ∈ s.done)).toNat +
      (decide (j ∈ s.errored)).toNat = (decide (j ∈ s.jobs)).toNat
    rw [htake (Worker.running_eq_false (by simp [hidle]) (by simp [hidle]))]
    omega
  | finish hbusy hnew => exact places_finish hbusy hnew hjob hplaces j
  | killedEof => exact places_killedEof hjob hplaces j
  | @observe rss =>
    have hsame : (s.doObserve rss).holders j = s.holders j :=
      countSlots_congr fun i => Worker.holds_read j _ _
    rw [State.places_eq, hsame]
    exact hj
  | @sample own victim _ =>
    rw [State.doSample]
    split
    · exact hkeep (i := victim) (by rfl)
    · exact hj

/-! ## Every run -/

/-- **One move keeps the invariant.** -/
theorem inv_moves (h : Moves budget s s') (hinv : s.Inv) : s'.Inv := by
  have hsolo := solo_moves h fun hm => ⟨hinv.alone hm, hinv.progress hm⟩
  refine ⟨places_moves h hinv.consistent hinv.places, consistent_moves h hinv.consistent,
    fun hm => (hsolo hm).1, fun hm => (hsolo hm).2, fun i hexiting => ?_⟩
  refine finished_moves h ?_
  rcases exiting_moves h hexiting with hfinished | hbefore
  · exact hfinished
  · exact hinv.exiting i hbefore

/-- It holds of the start, where every known job is still to do. -/
theorem inv_init (jobs : Finset J) (estimate : Nat) : (init n jobs estimate).Inv where
  places j := by
    have hidle : (init n jobs estimate).holders j = 0 := countSlots_eq_zero.mpr fun _ => rfl
    rw [State.places_eq, hidle]
    rfl
  consistent _ := rfl
  alone h := by cases h
  progress h := by cases h
  exiting _ h := by cases h

/-- **The invariant of the policy**, in every run. -/
theorem inv_of_reachable {jobs : Finset J} {estimate : Nat} {rely : State J n → Event J n → Prop}
    (h : (system budget jobs estimate).Reachable rely s) : s.Inv :=
  h.invariant (I := State.Inv) (inv_init jobs estimate) fun _ hinv _ hstep =>
    inv_moves (step_moves hstep) hinv

/-! ## Counting the jobs -/

namespace State

/-- The jobs of the running workers. -/
def runningJobs (s : State J n) : Finset J :=
  Finset.univ.biUnion fun i => if (s.workers i).running then (s.workers i).job.toFinset else ∅

/-- A job runs exactly when a slot holds it. -/
theorem mem_runningJobs (h : s.Inv) {j : J} : j ∈ s.runningJobs ↔ 0 < s.holders j := by
  rw [holders, countSlots_pos, runningJobs, Finset.mem_biUnion]
  constructor
  · rintro ⟨i, -, hj⟩
    split at hj
    · exact ⟨i, by simpa [Worker.holds] using hj⟩
    · cases hj
  · rintro ⟨i, hi⟩
    rw [Worker.holds, decide_eq_true_eq] at hi
    have hrunning : (s.workers i).running = true := by rw [← h.consistent i, hi]; rfl
    exact ⟨i, Finset.mem_univ i, by rw [if_pos hrunning, hi]; simp⟩

/-- The known jobs are those in one of the five places. -/
theorem Inv.jobs_eq (h : s.Inv) :
    s.jobs = s.todo ∪ s.solo.toFinset ∪ s.runningJobs ∪ s.done ∪ s.errored := by
  ext j
  have hj := (s.places_eq j).symm.trans (h.places j)
  simp only [Finset.mem_union, List.mem_toFinset, mem_runningJobs h]
  constructor
  · -- a known job that is nowhere would make the sum zero
    intro hmem
    rw [decide_eq_true hmem, Bool.toNat_true] at hj
    by_contra hnot
    simp only [not_or, Nat.not_lt, Nat.le_zero] at hnot
    obtain ⟨⟨⟨⟨htodo, hsolo⟩, hrunning⟩, hdone⟩, herrored⟩ := hnot
    simp [htodo, List.count_eq_zero_of_not_mem hsolo, hrunning, hdone, herrored] at hj
  · -- an unknown one in some place would make it positive
    intro hsome
    by_contra hnot
    rw [decide_eq_false hnot, Bool.toNat_false] at hj
    have hcount : s.solo.count j = 0 := by omega
    rcases hsome with (((hm | hm) | hm) | hm) | hm
    · simp [hm] at hj
    · exact absurd hm (List.count_eq_zero.mp hcount)
    · omega
    · simp [hm] at hj
    · simp [hm] at hj

/-- A set of known jobs, counted among the known ones. -/
theorem sum_toNat_mem {A B : Finset J} (h : A ⊆ B) :
    ∑ j ∈ B, (decide (j ∈ A)).toNat = A.card := by
  have hind : ∀ j ∈ B, (decide (j ∈ A)).toNat = if j ∈ A then 1 else 0 := by
    intro j _
    by_cases hj : j ∈ A <;> simp [hj]
  rw [Finset.sum_congr rfl hind, Finset.sum_ite_mem, Finset.inter_eq_right.mpr h, Finset.sum_const,
    smul_eq_mul, Nat.mul_one]

/-- A slot has as many of the known jobs as it runs. -/
theorem sum_holders (h : s.Inv) : ∑ j ∈ s.jobs, s.holders j = s.nRunning := by
  simp only [holders, countSlots, nRunning]
  rw [Finset.sum_comm]
  refine Finset.sum_congr rfl fun i _ => ?_
  rw [← h.consistent i]
  cases hi : (s.workers i).job with
  | none => simp [Worker.holds, hi]
  | some job =>
    have hmem : job ∈ s.jobs := by
      have hpos : 0 < s.holders job := countSlots_pos.mpr ⟨i, by simp [Worker.holds, hi]⟩
      rw [h.jobs_eq]
      simp [mem_runningJobs h, hpos]
    rw [Finset.sum_eq_single_of_mem job hmem]
    · simp [Worker.holds, hi]
    · intro j _ hne
      simp [Worker.holds, hi, hne.symm]

/-- So their numbers add up. -/
theorem Inv.card_eq (h : s.Inv) : s.jobs.card =
    s.todo.card + s.solo.length + s.nRunning + s.done.card + s.errored.card := by
  have hsub : ∀ A : Finset J, A ⊆ s.todo ∪ s.solo.toFinset ∪ s.runningJobs ∪ s.done ∪ s.errored →
      ∑ j ∈ s.jobs, (decide (j ∈ A)).toNat = A.card :=
    fun A hA => sum_toNat_mem (h.jobs_eq ▸ hA)
  have hsolo : ∑ j ∈ s.jobs, s.solo.count j = s.solo.length := by
    rw [← List.sum_toFinset_count_eq_length]
    refine (Finset.sum_subset ?_ fun j _ hj => ?_).symm
    · intro j hj
      rw [h.jobs_eq]
      simp [List.mem_toFinset.mp hj]
    · exact List.count_eq_zero_of_not_mem fun hm => hj (List.mem_toFinset.mpr hm)
  have hsum : ∑ j ∈ s.jobs, s.places j = s.jobs.card := by
    rw [Finset.sum_congr rfl fun j _ => h.places j, sum_toNat_mem (Finset.Subset.refl _)]
  simp only [places_eq, Finset.sum_add_distrib] at hsum
  rw [hsub s.todo (by intro j hj; simp [hj]), hsolo, sum_holders h,
    hsub s.done (by intro j hj; simp [hj]), hsub s.errored (by intro j hj; simp [hj])] at hsum
  exact hsum.symm

end State

end Policy

end NixEvalJobs
