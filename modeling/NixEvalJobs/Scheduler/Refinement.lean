import NixEvalJobs.Scheduler.Admission
import NixEvalJobs.Scheduler.Budget
import NixEvalJobs.Scheduler.Conservation
import NixEvalJobs.Scheduler.Solo
import NixEvalJobs.Spec.Policy

/-!
# Scheduler — refinement of the policy

The class, with its passes, its machine integers and its processes, does nothing that
the policy does not allow. Three promises are needed. The workers echo the path they
were sent; memory is far from what `size_t` holds; and no turn overlooks a killed
worker, which is where the code is more generous than the policy.

* `Shows` — a state of the policy is what a state of the scheduler amounts to; what is
  done and what is an error is read off the history.
* `refines_policy` — every event is some moves of the policy, or none.
-/

namespace NixEvalJobs

/-! ## Machine integers -/

/-- `std::max` on machine integers is the maximum of the numbers. -/
theorem toNat_max (a b : UInt64) : (max a b).toNat = max a.toNat b.toNat := by
  show (if a ≤ b then b else a).toNat = _
  by_cases h : a ≤ b
  · rw [if_pos h, Nat.max_eq_right (UInt64.le_iff_toNat_le.mp h)]
  · rw [if_neg h, Nat.max_eq_left (Nat.le_of_not_le fun hle => h (UInt64.le_iff_toNat_le.mpr hle))]

/-- The growth of a worker in machine integers. -/
theorem Worker.growth_toNat (w : Worker) : w.growth.toNat = w.rss.toNat - w.startRss.toNat := by
  rw [growth]
  split
  · -- it has grown, and the difference does not wrap
    next h => exact UInt64.toNat_sub_of_le _ _ (UInt64.le_of_lt h)
  · -- it has not, and truncated subtraction is zero as well
    next h =>
    have hle : w.rss.toNat ≤ w.startRss.toNat := Nat.not_lt.mp h
    exact (Nat.sub_eq_zero_of_le hle).symm

/-! ## States -/

/-- The slot as the policy sees it. A slot without a process has no memory. -/
structure Worker.Shows (w : Worker) (v : Policy.Worker AttrPath) : Prop where
  phase : v.phase = w.phase
  job : v.job = w.attrPath
  rss : v.rss = w.rss.toNat
  startRss : w.running = true → v.startRss = w.startRss.toNat
  gone : w.phase = .none → w.rss = 0
  small : w.rss.toNat < 2 ^ 40

/-- A slot without a process shows as one. -/
theorem Worker.shows_default : ({} : Worker).Shows {} where
  phase := rfl
  job := rfl
  rss := rfl
  startRss h := by cases h
  gone _ := rfl
  small := by decide

/-- The phase decides whether a slot runs, on both sides. -/
theorem Worker.Shows.running {w : Worker} {v : Policy.Worker AttrPath} (h : w.Shows v) :
    v.running = w.running := by
  rw [Policy.Worker.running, h.phase, Worker.running]

/-- The effect is the response to `path`. -/
def Effect.answers {n : Nat} (path : AttrPath) : Effect n → Bool
  | .responded response _ => response.attrPath = path
  | _ => false

/-- The effect neither answers a path nor gives one up. -/
structure Effect.Quiet {n : Nat} (e : Effect n) : Prop where
  lists : ∀ path, e.lists path = false
  answers : ∀ path, e.answers path = false
  gaveUp : e.gaveUp = none

namespace Scheduler

variable {n : Nat} {X : Externals} {nrWorkers maxMemorySize : UInt64} {resolver : Bool}

/-- What the history says about jobs. -/
structure Tells (trace : List (Effect n)) (jobs done errored : Finset AttrPath) : Prop where
  jobs : ∀ path, path ∈ jobs ↔ discovered path trace = true
  done : ∀ path, path ∈ done ↔ ∃ e ∈ trace, e.answers path = true
  errored : ∀ path, path ∈ errored ↔ ∃ e ∈ trace, e.gaveUp = some path

/-- The state of the scheduler as the policy sees it. -/
structure Shows (s : Scheduler n) (m : Policy.State AttrPath n) : Prop where
  worker : ∀ i, (s.workers i).Shows (m.workers i)
  todo : ∀ path, path ∈ m.todo ↔ path ∈ s.todo
  solo : m.solo = s.solo
  mode : m.mode = s.mode
  estimate : m.estimate = s.estimate.toNat
  small : s.estimate.toNat < 2 ^ 40
  recorded : Tells s.trace m.jobs m.done m.errored

variable {s : Scheduler n} {m : Policy.State AttrPath n}

namespace Shows

/-- One slot is rewritten on both sides. -/
theorem setWorker (h : s.Shows m) (i : Fin n) {w : Worker} {v : Policy.Worker AttrPath}
    (hw : w.Shows v) : (s.setWorker i w).Shows (m.setW i v) := by
  refine ⟨fun j => ?_, h.todo, h.solo, h.mode, h.estimate, h.small, h.recorded⟩
  -- the slot itself, or one of the others
  by_cases hj : j = i
  · subst hj
    rw [setWorker_workers, Function.update_self, Policy.State.workers_setW_self]
    exact hw
  · rw [setWorker_workers, Function.update_of_ne hj, Policy.State.workers_setW_of_ne hj]
    exact h.worker j

/-- As many slots run on both sides. -/
theorem running (h : s.Shows m) : m.nRunning = s.running := by
  rw [Policy.State.nRunning, Scheduler.running, countSlots, countSlots]
  exact Finset.sum_congr rfl fun i _ => by rw [(h.worker i).running]

/-- The work is the same set. -/
theorem todo_empty (h : s.Shows m) : m.todo = ∅ ↔ s.todo = ∅ := by
  rw [Finset.eq_empty_iff_forall_notMem, Std.ExtTreeSet.eq_empty_iff_forall_not_mem]
  exact forall_congr' fun path => not_congr (h.todo path)

/-- So they agree on whether all is done. -/
theorem finished (h : s.Shows m) : m.finished = s.finished := by
  rw [Bool.eq_iff_iff, finished_iff, Policy.State.finished, decide_eq_true_eq, h.todo_empty, h.solo,
    h.running]

/-- An effect that says nothing about jobs. -/
theorem record (h : s.Shows m) {e : Effect n} (he : e.Quiet) : (s.record e).Shows m := by
  refine ⟨h.worker, h.todo, h.solo, h.mode, h.estimate, h.small, fun path => ?_, fun path => ?_,
    fun path => ?_⟩
  · rw [h.recorded.jobs, record_trace, discovered_cons, he.lists, Bool.or_false]
  · rw [h.recorded.done, record_trace]
    simp [he.answers]
  · rw [h.recorded.errored, record_trace]
    simp [he.gaveUp]

end Shows

/-- The policy that the scheduler starts with: the root is to be evaluated. -/
abbrev policy (n budget : Nat) : System (Policy.State AttrPath n) (Policy.Event AttrPath n) :=
  Policy.system budget {[]} 512

variable {budget : Nat}

/-- One move of the policy is a run of it. -/
theorem leads_of_step {m' : Policy.State AttrPath n} {e : Policy.Event AttrPath n}
    (h : Policy.step budget m e = some m') : (policy n budget).Leads System.anyEnv m m' :=
  System.Leads.step trivial h

/-- Both start with the root to be evaluated, an estimate of 512 and empty slots. -/
theorem shows_init (n : Nat) (nrWorkers maxMemorySize : UInt64) (resolver : Bool) :
    (init n nrWorkers maxMemorySize resolver).Shows (Policy.init n {[]} 512) where
  worker _ := Worker.shows_default
  todo path := by
    show path ∈ ({[]} : Finset AttrPath) ↔ path ∈ (∅ : StdSet AttrPath).insert []
    rw [Finset.mem_singleton, Std.ExtTreeSet.mem_insert, Std.LawfulEqCmp.compare_eq_iff_eq]
    simp only [Std.ExtTreeSet.not_mem_empty, or_false]
    exact eq_comm
  solo := rfl
  mode := rfl
  estimate := rfl
  small := (by decide : (512 : UInt64).toNat < 2 ^ 40)
  recorded := ⟨fun path => by simp [Policy.init, discovered, init], fun path => by
    simp [Policy.init, init], fun path => by simp [Policy.init, init]⟩

/-! ## A pass -/

namespace Shows

/-- Solo mode is entered under the same condition. -/
theorem beginDispatch (h : s.Shows m) :
    ∃ m', (policy n budget).Leads System.anyEnv m m' ∧ s.beginDispatch.Shows m' := by
  rw [Scheduler.beginDispatch]
  split
  · next henter =>
    have hstep : Policy.step budget m .enterSolo = some m.doEnterSolo :=
      if_pos ⟨h.mode.trans henter.1, by rw [h.solo]; exact henter.2.1, h.running.trans henter.2.2⟩
    refine ⟨_, leads_of_step hstep, ?_⟩
    have hreset : ({ s with workers := fun _ => {}, mode := .solo } : Scheduler n).Shows
        m.doEnterSolo :=
      ⟨fun _ => Worker.shows_default, h.todo, h.solo, rfl, h.estimate, h.small, h.recorded⟩
    exact hreset.record ⟨fun _ => rfl, fun _ => rfl, rfl⟩
  · exact ⟨m, .refl, h⟩

/-- A worker is told to exit when everything is done. -/
theorem sendExit (h : s.Shows m) {i : Fin n} (hidle : (s.workers i).phase = .idle)
    (hfinished : s.finished = true) : ∃ m', (policy n budget).Leads System.anyEnv m m' ∧
      ((s.setWorker i { s.workers i with phase := .exiting }).record (.toldExit i)).Shows m' := by
  have hstep : Policy.step budget m (.sendExit i) = some (m.doEnter i .exiting) :=
    if_pos ⟨h.finished.trans hfinished, (h.worker i).phase.trans hidle⟩
  refine ⟨_, leads_of_step hstep, (h.setWorker i ?_).record ⟨fun _ => rfl, fun _ => rfl, rfl⟩⟩
  obtain ⟨-, hjob, hrss, -, -, hsmall⟩ := h.worker i
  exact ⟨rfl, hjob, hrss, fun hr => (by cases hr), fun hp => (by cases hp), hsmall⟩

/-- A worker is started, in Solo mode only when no other is alive. -/
theorem spawn (h : s.Shows m) (hphases : s.PhasesConsistent) {i : Fin n} {proc : Proc}
    {rss : UInt64} (hnone : (s.workers i).phase = .none) (hfinished : s.finished = false)
    (halone : s.mode = .solo → s.anyWorkerAlive = false) (hrss : rss.toNat < 2 ^ 40) :
    ∃ m', (policy n budget).Leads System.anyEnv m m' ∧
      ((s.setWorker i (({ s.workers i with proc := some proc, phase := .starting } :
        Worker).sampleRss rss)).record (.spawned i)).Shows m' := by
  -- the policy counts the workers that are alive
  have hdead : m.mode = .solo → m.nAlive = 0 := by
    intro hmode
    have hgone := anyWorkerAlive_eq_false.mp (halone (h.mode.symm.trans hmode))
    refine countSlots_eq_zero.mpr fun j => ?_
    rw [Policy.Worker.alive, (h.worker j).phase, (hphases j).proc.mp (hgone j)]
    rfl
  have hstep : Policy.step budget m (.spawn i rss.toNat) = some (m.doSpawn i rss.toNat) :=
    if_pos ⟨h.finished.trans hfinished, (h.worker i).phase.trans hnone, hdead⟩
  refine ⟨_, leads_of_step hstep, (h.setWorker i ?_).record ⟨fun _ => rfl, fun _ => rfl, rfl⟩⟩
  -- a free slot has no path
  have hpath : (s.workers i).attrPath = none := by
    by_contra hsome
    have hbusy := (hphases i).attrPath.mp (Option.ne_none_iff_exists'.mp hsome)
    rw [hnone] at hbusy
    rcases hbusy with hbusy | hbusy <;> cases hbusy
  exact ⟨rfl, hpath.symm, rfl, fun hr => (by cases hr), fun hp => (by cases hp), hrss⟩

/-- The slot gets the job. -/
theorem handOut (h : s.Shows m) (i : Fin n) (path : AttrPath) (source : Source) :
    ((s.startJob i).handOut i path source).Shows (m.setW i ((m.workers i).take path)) := by
  have hslot : (s.setWorker i { s.workers i with
      startRss := (s.workers i).rss, attrPath := some path, phase := .busy }).Shows
      (m.setW i ((m.workers i).take path)) := by
    obtain ⟨-, -, hrss, -, -, hsmall⟩ := h.worker i
    exact h.setWorker i ⟨rfl, rfl, hrss, fun _ => hrss, fun hp => (by cases hp), hsmall⟩
  have hrecorded := hslot.record (e := .handedOut i path source s.mode)
    ⟨fun _ => rfl, fun _ => rfl, rfl⟩
  -- `handOut` and `take` write the same slot
  refine ⟨fun j => ?_, h.todo, h.solo, h.mode, h.estimate, h.small, hrecorded.recorded⟩
  rw [handOut_startJob_workers]
  exact hslot.worker j

/-- A job of `solo` is taken from its end. -/
theorem takeSolo (h : s.Shows m) {i : Fin n} {path : AttrPath}
    (hidle : (s.workers i).phase = .idle) (hrunning : s.running = 0) (hmode : s.mode = .solo)
    (hlast : s.solo.getLast? = some path) : ∃ m', (policy n budget).Leads System.anyEnv m m' ∧
      ((startJob { s with solo := s.solo.dropLast } i).handOut i path .solo).Shows m' := by
  have hstep : Policy.step budget m (.takeSolo i path) = some (m.doTakeSolo i path) :=
    if_pos ⟨(h.worker i).phase.trans hidle, h.mode.trans hmode, h.running.trans hrunning,
      by rw [h.solo]; exact hlast⟩
  have hsolo : ({ s with solo := s.solo.dropLast } : Scheduler n).Shows
      { m with solo := m.solo.dropLast } :=
    ⟨h.worker, h.todo, congrArg List.dropLast h.solo, h.mode, h.estimate, h.small, h.recorded⟩
  exact ⟨_, leads_of_step hstep, hsolo.handOut i path .solo⟩

end Shows

/-! ### Admission -/

/-- The room check for any number of jobs, over unbounded integers. -/
theorem hasRoom_iff {own : UInt64} {jobs : Nat} (hn : n < 2 ^ 16) (h : s.Bounded own)
    (hjobs : jobs ≤ n) : s.hasRoom own jobs = true ↔
      s.exactRss own + (jobs + 1) * s.estimate.toNat ≤ s.budget.toNat := by
  have hrss := exactRss_le h.own h.rss
  have hgrow : (jobs + 1) * s.estimate.toNat ≤ (n + 1) * (2 ^ 40 - 1) :=
    Nat.mul_le_mul (Nat.succ_le_succ hjobs) (Nat.le_pred_of_lt h.estimate)
  have hlarge := maxLoad_lt hn
  rw [maxLoad] at hlarge
  -- none of the products and sums reaches 2^64
  have hcount : (UInt64.ofNat (jobs + 1)).toNat = jobs + 1 := by
    rw [UInt64.toNat_ofNat', Nat.mod_eq_of_lt (by omega)]
  have hgrowth : (UInt64.ofNat (jobs + 1) * s.estimate).toNat = (jobs + 1) * s.estimate.toNat := by
    rw [UInt64.toNat_mul, hcount, Nat.mod_eq_of_lt (by omega)]
  have hload : (s.totalRss own + UInt64.ofNat (jobs + 1) * s.estimate).toNat =
      s.exactRss own + (jobs + 1) * s.estimate.toNat := by
    rw [UInt64.toNat_add, totalRss_toNat (by omega), hgrowth, Nat.mod_eq_of_lt (by omega)]
  rw [hasRoom, decide_eq_true_eq, UInt64.le_iff_toNat_le, hload]

namespace Shows

/-- Memory is far from what `size_t` holds. -/
theorem bounded (h : s.Shows m) {own : UInt64} (hown : own.toNat < 2 ^ 40) : s.Bounded own :=
  ⟨hown, fun i => (h.worker i).small, h.small⟩

/-- The exact sum of memory is that of the policy. -/
theorem exactRss (h : s.Shows m) (own : UInt64) : s.exactRss own = own.toNat + m.totalRss := by
  rw [Scheduler.exactRss, Policy.State.totalRss]
  simp only [(h.worker _).rss]

/-- What the guard of the class comment admits, the policy admits. -/
theorem fitsBudget (h : s.Shows m) (hn : n < 2 ^ 16) {own : UInt64} (hown : own.toNat < 2 ^ 40)
    (hadmits : s.admits own = true) : m.fitsBudget s.budget.toNat own.toNat = true := by
  rw [admits, decide_eq_true_eq] at hadmits
  rw [Policy.State.fitsBudget, decide_eq_true_eq, h.running, h.estimate, ← h.exactRss]
  refine hadmits.imp_right fun hroom => ?_
  exact (hasRoom_iff hn (h.bounded hown) (countSlots_le.trans_eq (Fintype.card_fin n))).mp hroom

/-- A job of `todo` is taken when the policy has room. -/
theorem takeTodo (h : s.Shows m) (hn : n < 2 ^ 16) (hbudget : s.budget.toNat = budget) {i : Fin n}
    {path : AttrPath} {own : UInt64} {source : Source} (hown : own.toNat < 2 ^ 40)
    (hidle : (s.workers i).phase = .idle) (hmode : s.mode = .parallel) (hsolo : s.solo = [])
    (hadmits : s.admits own = true) (hfirst : StdSet.first s.todo = some path) :
    ∃ m', (policy n budget).Leads System.anyEnv m m' ∧
      ((startJob { s with todo := s.todo.erase path } i).handOut i path source).Shows m' := by
  have hmem := (h.todo path).mpr (StdSet.mem_of_first hfirst)
  have hstep : Policy.step budget m (.takeTodo i path own.toNat) = some (m.doTakeTodo i path) :=
    if_pos ⟨(h.worker i).phase.trans hidle, h.mode.trans hmode, h.solo.trans hsolo, hmem,
      hbudget ▸ h.fitsBudget hn hown hadmits⟩
  -- both sides remove the path
  have htodo : ({ s with todo := s.todo.erase path } : Scheduler n).Shows
      { m with todo := m.todo.erase path } := by
    refine ⟨h.worker, fun q => ?_, h.solo, h.mode, h.estimate, h.small, h.recorded⟩
    rw [Finset.mem_erase, Std.ExtTreeSet.mem_erase, ← h.todo, ne_eq, ne_eq,
      Std.LawfulEqCmp.compare_eq_iff_eq, eq_comm]
  exact ⟨_, leads_of_step hstep, htodo.handOut i path source⟩

/-- A job that a turn takes, if the turn does not overlook a killed worker. -/
theorem takeJob (h : s.Shows m) (hn : n < 2 ^ 16) (hbudget : s.budget.toNat = budget) {i : Fin n}
    {path : AttrPath} {own : UInt64} {source : Source} {t : Scheduler n}
    (hown : own.toNat < 2 ^ 40) (hidle : (s.workers i).phase = .idle)
    (hcareful : ¬s.Overlooks i own) (htake : s.takeJob i own = .ok (some (path, source), t)) :
    ∃ m', (policy n budget).Leads System.anyEnv m m' ∧ (t.handOut i path source).Shows m' := by
  have hadmitted := (takeJob_admitted .parallel hidle htake).mpr hcareful
  -- nothing was taken, or one from `solo`, or one from `todo`
  rcases takeJob_cases htake with ⟨hnone, -⟩ | ⟨p, hjob, hrunning, hmode, hlast, rfl⟩ |
    ⟨p, hjob, hmode, hsolo, -, hfirst, rfl⟩
  · cases hnone
  · cases hjob
    exact h.takeSolo hidle hrunning hmode hlast
  · cases hjob
    exact h.takeTodo hn hbudget hown hidle hmode hsolo hadmitted hfirst

end Shows

/-! ## The end of a worker -/

namespace Shows

/-- The slot is free again, in Parallel mode. -/
theorem forgetKilled (h : s.Shows m) (i : Fin n) :
    (s.forgetKilled i).Shows { m.setW i {} with mode := .parallel } := by
  have hslot := h.setWorker i Worker.shows_default
  exact ⟨hslot.worker, h.todo, h.solo, rfl, h.estimate, h.small, h.recorded⟩

/-- The job is tried again alone. -/
theorem requeue (h : s.Shows m) {i : Fin n} {path : AttrPath}
    (hholds : (s.workers i).holds path = true) (hmode : s.mode = .parallel) :
    (({ s with solo := s.solo ++ [path] }.record (.requeued path)).forgetKilled i).Shows
      (m.doKilledEof i) := by
  obtain ⟨hrunning, hpath⟩ := Worker.holds_iff.mp hholds
  have hr : (m.workers i).running = true :=
    (h.worker i).running.trans (Worker.running_iff.mpr hrunning)
  have hjob : (m.workers i).job = some path := (h.worker i).job.trans hpath
  have hm : m.mode ≠ .solo := by rw [h.mode, hmode]; decide
  -- what `doKilledEof` does in this case
  have hkilled : m.doKilledEof i = { ({ m with solo := m.solo ++ [path] } :
      Policy.State AttrPath n).setW i {} with mode := .parallel } := by
    rw [Policy.State.doKilledEof]
    simp only [hr, hjob, hm, if_true, if_false, Option.toList_some]
    rfl
  have hqueued : ({ s with solo := s.solo ++ [path] } : Scheduler n).Shows
      { m with solo := m.solo ++ [path] } :=
    ⟨h.worker, h.todo, congrArg (· ++ [path]) h.solo, h.mode, h.estimate, h.small, h.recorded⟩
  rw [hkilled]
  exact (hqueued.record ⟨fun _ => rfl, fun _ => rfl, rfl⟩).forgetKilled i

/-- The job was alone, and is an error. -/
theorem giveUp (h : s.Shows m) {i : Fin n} {path : AttrPath} {response : Response} {json : Json}
    {dumped : Str} (hholds : (s.workers i).holds path = true) (hmode : s.mode = .solo) :
    (((s.emitResponse response json dumped).record (.budgetError path)).forgetKilled i).Shows
      (m.doKilledEof i) := by
  obtain ⟨hrunning, hpath⟩ := Worker.holds_iff.mp hholds
  have hr : (m.workers i).running = true :=
    (h.worker i).running.trans (Worker.running_iff.mpr hrunning)
  have hjob : (m.workers i).job = some path := (h.worker i).job.trans hpath
  have hm : m.mode = .solo := h.mode.trans hmode
  have hkilled : m.doKilledEof i = { ({ m with errored := m.errored ∪ {path} } :
      Policy.State AttrPath n).setW i {} with mode := .parallel } := by
    rw [Policy.State.doKilledEof]
    simp only [hr, hjob, hm, if_true, Option.toFinset_some]
    rfl
  -- the only difference in the history is the new error
  have hrecorded : Tells (.budgetError path :: s.trace) m.jobs m.done (m.errored ∪ {path}) := by
    refine ⟨fun q => ?_, fun q => ?_, fun q => ?_⟩
    · rw [h.recorded.jobs, discovered_cons]
      exact iff_of_eq (congrArg (· = true) (Bool.or_false _).symm)
    · rw [h.recorded.done]
      simp [Effect.answers]
    · rw [Finset.mem_union, Finset.mem_singleton, h.recorded.errored]
      simp only [List.mem_cons, exists_eq_or_imp, Effect.gaveUp, Option.some.injEq]
      rw [or_comm, eq_comm]
  have herror : ((s.emitResponse response json dumped).record (.budgetError path)).Shows
      { m with errored := m.errored ∪ {path} } :=
    ⟨h.worker, h.todo, h.solo, h.mode, h.estimate, h.small, hrecorded⟩
  rw [hkilled]
  exact herror.forgetKilled i

/-- A closed pipe is an exit that was asked for, or the end of a killed worker. -/
theorem onEof (h : s.Shows m) (hphases : s.PhasesConsistent) {i : Fin n} {wait : Wait}
    {s' : Scheduler n} (heof : s.onEof X i wait = .ok s') :
    ∃ m', (policy n budget).Leads System.anyEnv m m' ∧ s'.Shows m' := by
  rcases onEof_cases heof with ⟨hexiting, rfl⟩ | ⟨hphase, -, hkilled⟩
  · have hstep : Policy.step budget m (.exited i) = some (m.doReset i) :=
      if_pos ((h.worker i).phase.trans hexiting)
    exact ⟨_, leads_of_step hstep, h.setWorker i Worker.shows_default⟩
  -- a slot that is not exiting has a live process
  have halive : (m.workers i).alive = true ∧ (m.workers i).phase ≠ .exiting := by
    have hproc := onEof_proc hphase heof
    rw [Policy.Worker.alive, (h.worker i).phase]
    refine ⟨decide_eq_true fun hnone => ?_, hphase⟩
    rw [(hphases i).proc.mpr hnone] at hproc
    cases hproc
  have hstep : Policy.step budget m (.killedEof i) = some (m.doKilledEof i) := if_pos halive
  refine ⟨_, leads_of_step hstep, ?_⟩
  rcases onKilled_cases hkilled with ⟨hrunning, rfl⟩ | ⟨path, hholds, hmode, rfl⟩ |
    ⟨path, dumped, hholds, hmode, rfl⟩
  · -- it had no job
    have hr : (m.workers i).running = false := (h.worker i).running.trans hrunning
    have hlost : m.doKilledEof i = { m.setW i {} with mode := .parallel } := by
      rw [Policy.State.doKilledEof]
      simp only [hr, Bool.false_eq_true, if_false, Option.toList_none, Option.toFinset_none,
        List.append_nil, Finset.union_empty, ite_self]
      rfl
    rw [hlost]
    exact h.forgetKilled i
  · exact h.requeue hholds hmode
  · exact h.giveUp hholds hmode

end Shows

/-! ## Worker output -/

/-- The paths that a response lists. -/
def children (response : Response) : Finset AttrPath :=
  match response.payload with
  | .attrs attrs => (attrs.map fun attr => response.attrPath ++ [attr]).toFinset
  | _ => ∅

/-- The history lists a path with a response if the response does. -/
theorem lists_responded (path : AttrPath) (response : Response) (json : Json) :
    Effect.lists (n := n) path (.responded response json) = true ↔ path ∈ children response := by
  rw [Effect.lists, children]
  cases response.payload with
  | attrs attrs => simp
  | job | error => simp

/-- What a response lists goes to `todo`. -/
theorem acceptResponse_todo {t : Scheduler n} {response : Response} {json : Json} {line : Str}
    (h : s.acceptResponse response json line = .ok t) (path : AttrPath) :
    path ∈ t.todo ↔ path ∈ s.todo ∨ path ∈ children response := by
  rw [children]
  rcases acceptResponse_cases h with ⟨attrs, hattrs, rfl⟩ | ⟨hother, ht⟩
  · rw [hattrs, addChildren, StdSet.mem_foldl_insert]
    simp
  · have htodo : t.todo = s.todo := by rcases ht with ⟨-, rfl⟩ | rfl <;> rfl
    rw [htodo]
    cases hpayload : response.payload with
    | attrs attrs => exact absurd hpayload (hother attrs)
    | job | error => simp

/-- The decayed maximum in machine integers. -/
theorem estimate_toNat {estimate growth : UInt64} (h : estimate.toNat < 2 ^ 40) :
    (max (estimate * decayPercent / 100) growth).toNat =
      max (estimate.toNat * 98 / 100) growth.toNat := by
  -- 98 times the estimate does not wrap
  have hdecay : (estimate * decayPercent / 100).toNat = estimate.toNat * 98 / 100 := by
    have hpercent : decayPercent.toNat = 98 := by decide
    have hhundred : (100 : UInt64).toNat = 100 := by decide
    rw [UInt64.toNat_div, UInt64.toNat_mul, hpercent, hhundred, Nat.mod_eq_of_lt (by omega)]
  rw [← hdecay]
  exact toNat_max _ _

namespace Shows

/-- A processed response: its job is done, and what it lists is new. -/
theorem finish (h : s.Shows m) (hphases : s.PhasesConsistent) (hconserved : s.Conserved)
    {i : Fin n} {response : Response} {json : Json} {line : Str} {rss : UInt64} {t : Scheduler n}
    (hrss : rss.toNat < 2 ^ 40) (hbusy : (s.workers i).phase = .busy)
    (hecho : ∀ path, (s.workers i).attrPath = some path → response.attrPath = path)
    (haccept : s.acceptResponse response json line = .ok t) :
    ∃ m', (policy n budget).Leads System.anyEnv m m' ∧
      ((t.record (.responded response json)).jobFinished i rss).Shows m' := by
  obtain ⟨hworkers, htrace, hsolo⟩ := acceptResponse_frame haccept
  obtain ⟨path, hpath⟩ := (hphases i).attrPath.mpr (.inl hbusy)
  have hattr := hecho path hpath
  have hholds : (s.workers i).holds path = true := Worker.holds_iff.mpr ⟨.inl hbusy, hpath⟩
  have hproc : (s.workers i).proc.isSome = true := by
    rw [Option.isSome_iff_ne_none, ne_eq, (hphases i).proc, hbusy]
    decide
  -- the slot has a process, so its memory is read
  have hsample : ((s.workers i).sampleRss rss).rss = rss := if_pos hproc
  -- nothing of what is listed was known
  have hnew : Disjoint (children response) m.jobs := by
    rw [Finset.disjoint_left]
    intro q hq hjob
    rw [h.recorded.jobs] at hjob
    rw [children] at hq
    cases hpayload : response.payload with
    | attrs attrs =>
      rw [hpayload] at hq
      obtain ⟨attr, -, rfl⟩ := List.mem_map.mp (List.mem_toFinset.mp hq)
      rw [hattr, hconserved.discovered_child hholds attr] at hjob
      cases hjob
    | job | error =>
      rw [hpayload] at hq
      cases hq
  have hstep : Policy.step budget m (.finish i rss.toNat (children response)) =
      some (m.doFinish i rss.toNat (children response)) :=
    if_pos ⟨(h.worker i).phase.trans hbusy, hnew⟩
  have hestimate : t.estimate = s.estimate := by
    rcases acceptResponse_cases haccept with ⟨attrs, -, rfl⟩ | ⟨-, ⟨-, rfl⟩ | rfl⟩ <;> rfl
  -- the slot after the last sample of its job
  let w := (s.workers i).sampleRss rss
  have hgrowth : w.growth.toNat = rss.toNat - (m.workers i).startRss := by
    rw [Worker.growth_toNat, hsample, (h.worker i).startRss (Worker.running_iff.mpr (.inl hbusy))]
    rfl
  have hslot : (s.setWorker i { w with phase := .starting, attrPath := none }).Shows
      (m.setW i { phase := .starting, rss := rss.toNat }) :=
    h.setWorker i ⟨rfl, rfl, congrArg UInt64.toNat hsample.symm, fun hr => (by cases hr),
      fun hp => (by cases hp), hsample.symm ▸ hrss⟩
  have hfinished : ((t.record (.responded response json)).jobFinished i rss).estimate =
      max (s.estimate * decayPercent / 100) w.growth := by
    show max (t.estimate * decayPercent / 100) ((t.workers i).sampleRss rss).growth = _
    rw [hestimate, hworkers]
  have hmax : (max (s.estimate * decayPercent / 100) w.growth).toNat =
      max (s.estimate.toNat * 98 / 100) w.growth.toNat := estimate_toNat h.small
  refine ⟨_, leads_of_step hstep, fun j => ?_, fun q => ?_, h.solo.trans hsolo.symm, rfl, ?_, ?_,
    fun q => ?_, fun q => ?_, fun q => ?_⟩
  · have hslots : ((t.record (.responded response json)).jobFinished i rss).workers =
        Function.update s.workers i { w with phase := .starting, attrPath := none } := by
      show Function.update t.workers i { (t.workers i).sampleRss rss with
        phase := .starting, attrPath := none } = _
      rw [hworkers]
    rw [hslots]
    exact hslot.worker j
  · show q ∈ m.todo ∪ children response ↔ q ∈ t.todo
    rw [Finset.mem_union, h.todo, acceptResponse_todo haccept]
  · rw [hfinished, hmax, hgrowth, ← h.estimate]
    rfl
  · rw [hfinished, hmax, hgrowth]
    have hsmall := h.small
    exact max_lt (by omega) (by omega)
  · show q ∈ m.jobs ∪ children response ↔ discovered q (.responded response json :: t.trace) = true
    rw [Finset.mem_union, h.recorded.jobs, discovered_cons, htrace, Bool.or_eq_true,
      lists_responded]
  · show q ∈ m.done ∪ (m.workers i).job.toFinset ↔
      ∃ e ∈ Effect.responded response json :: t.trace, e.answers q = true
    rw [Finset.mem_union, h.recorded.done, (h.worker i).job, hpath, Option.toFinset_some,
      Finset.mem_singleton, htrace, ← hattr]
    simp only [List.mem_cons, exists_eq_or_imp, Effect.answers, decide_eq_true_eq]
    rw [or_comm, eq_comm]
  · show q ∈ m.errored ↔ ∃ e ∈ Effect.responded response json :: t.trace, e.gaveUp = some q
    rw [h.recorded.errored, htrace]
    simp [Effect.gaveUp]

/-- The three lines that change a slot, and those of a killed worker that change nothing. -/
theorem onLine (h : s.Shows m) (hphases : s.PhasesConsistent) (hconserved : s.Conserved)
    {i : Fin n} {line : Str} {rss : UInt64} {s' : Scheduler n} (hrss : rss.toNat < 2 ^ 40)
    (hecho : ∀ path response json, (s.workers i).phase = .busy →
      (s.workers i).attrPath = some path → parseResponse X line = .ok (response, json) →
      Echo path response json)
    (hline : s.onLine X i line rss = .ok s') :
    ∃ m', (policy n budget).Leads System.anyEnv m m' ∧ s'.Shows m' := by
  -- in the order of the switch in `onLine`
  rcases onLine_cases hline with ⟨hphase, -, rfl⟩ | ⟨hphase, -, rfl⟩ |
    ⟨hbusy, response, json, t, hparse, haccept, rfl⟩ | ⟨-, rfl⟩
  · have hstep : Policy.step budget m (.started i) = some (m.doEnter i .idle) :=
      if_pos ((h.worker i).phase.trans hphase)
    refine ⟨_, leads_of_step hstep, h.setWorker i ?_⟩
    obtain ⟨-, hjob, hmem, -, -, hsmall⟩ := h.worker i
    exact ⟨rfl, hjob, hmem, fun hr => (by cases hr), fun hp => (by cases hp), hsmall⟩
  · have hstep : Policy.step budget m (.restarted i) = some (m.doReset i) :=
      if_pos ((h.worker i).phase.trans hphase)
    exact ⟨_, leads_of_step hstep, h.setWorker i Worker.shows_default⟩
  · exact h.finish hphases hconserved hrss hbusy
      (fun path hpath => hecho path response json hbusy hpath hparse) haccept
  · exact ⟨m, .refl, h⟩

end Shows

/-! ## Sampling -/

/-- What a scan for the largest busy worker has found in the slots it has seen. -/
def LargestOf (s : Scheduler n) (seen : List (Fin n)) : Option (Fin n) → Prop
  | none => ∀ i ∈ seen, (s.workers i).phase ≠ .busy
  | some v => (s.workers v).phase = .busy ∧
      ∀ i ∈ seen, (s.workers i).phase = .busy → (s.workers i).rss ≤ (s.workers v).rss

/-- One slot after the other, the scan keeps the largest seen. -/
theorem foldl_largestOf (s : Scheduler n) (slots seen : List (Fin n)) (victim : Option (Fin n))
    (h : s.LargestOf seen victim) : s.LargestOf (seen ++ slots) (slots.foldl (fun victim idx =>
      if (s.workers idx).phase = .busy ∧
          ∀ v ∈ victim, (s.workers idx).rss > (s.workers v).rss then some idx
      else victim) victim) := by
  induction slots generalizing seen victim with
  | nil => rwa [List.append_nil]
  | cons idx slots ih =>
    rw [List.append_cons, List.foldl_cons]
    refine ih (seen ++ [idx]) _ ?_
    split
    · -- a larger one, or the first one
      next hnew =>
      refine ⟨hnew.1, fun i hi hbusy => ?_⟩
      rcases List.mem_append.mp hi with hold | hself
      · -- a slot seen before is no larger than the old victim
        cases victim with
        | none => exact absurd hbusy (h i hold)
        | some v => exact UInt64.le_of_lt (UInt64.lt_of_le_of_lt (h.2 i hold hbusy) (hnew.2 v rfl))
      · rw [List.mem_singleton.mp hself]
        exact UInt64.le_refl _
    · next hnot =>
      cases victim with
      | none =>
        intro i hi
        rcases List.mem_append.mp hi with hold | hself
        · exact h i hold
        · rw [List.mem_singleton.mp hself]
          exact fun hbusy => hnot ⟨hbusy, fun v hv => by cases hv⟩
      | some v =>
        refine ⟨h.1, fun i hi hbusy => ?_⟩
        rcases List.mem_append.mp hi with hold | hself
        · exact h.2 i hold hbusy
        · rw [List.mem_singleton.mp hself] at hbusy ⊢
          refine UInt64.not_lt.mp fun hlt => hnot ⟨hbusy, fun v' hv' => ?_⟩
          cases hv'
          exact hlt

/-- `largestBusy` is the largest busy slot of all. -/
theorem largestBusy_largest (s : Scheduler n) : s.LargestOf (List.finRange n) s.largestBusy :=
  foldl_largestOf s (List.finRange n) [] none (by simp [LargestOf])

/-- The largest value, in machine integers. -/
theorem foldl_max_toNat {p : Fin n → Bool} {f : Fin n → UInt64} (slots : List (Fin n))
    (estimate : UInt64) (b : Nat) :
    (slots.foldl (fun estimate idx => if p idx then max estimate (f idx) else estimate)
      estimate).toNat ≤ b ↔
      estimate.toNat ≤ b ∧ ∀ i ∈ slots, p i = true → (f i).toNat ≤ b := by
  induction slots generalizing estimate with
  | nil => simp
  | cons idx slots ih =>
    rw [List.foldl_cons, ih, List.forall_mem_cons]
    -- the slot counts, or is skipped
    by_cases hp : p idx = true
    · rw [if_pos hp, toNat_max, max_le_iff, and_assoc]
      exact and_congr_right fun _ => and_congr_left fun _ => ⟨fun hle _ => hle, fun hle => hle hp⟩
    · rw [if_neg hp]
      exact and_congr_right fun _ =>
        ⟨fun hall => ⟨fun hc => absurd hc hp, hall⟩, fun hall => hall.2⟩

namespace Shows

/-- New readings for the workers, and what the running ones teach. -/
theorem sampleWorkers (h : s.Shows m) (hphases : s.PhasesConsistent) {rss : Fin n → UInt64}
    (hrss : ∀ i, (rss i).toNat < 2 ^ 40) {o : Policy.State AttrPath n}
    (ho : o = m.doObserve fun i => (rss i).toNat) :
    (s.sampleWorkers rss).Shows { o with estimate := max o.estimate o.learned } := by
  subst ho
  set o := m.doObserve fun i => (rss i).toNat
  have hworker : ∀ i, ((s.sampleWorkers rss).workers i).Shows (o.workers i) := by
    intro i
    show ((s.workers i).sampleRss (rss i)).Shows ((m.workers i).read (rss i).toNat)
    obtain ⟨hphase, hjob, hold, hstart, hgone, hsmall⟩ := h.worker i
    cases hproc : (s.workers i).proc with
    | none =>
      -- nothing is read, and nothing was there
      have hnone := (hphases i).proc.mp hproc
      have hzero : ((s.workers i).sampleRss (rss i)).rss = 0 := if_neg (by simp [hproc])
      have hread : (m.workers i).read (rss i).toNat = m.workers i :=
        if_neg (by simp [Policy.Worker.alive, hphase, hnone])
      rw [hread]
      refine ⟨hphase, hjob, ?_, hstart, fun _ => hzero, ?_⟩
      · rw [hzero, hold, hgone hnone]
      · rw [hzero]
        decide
    | some proc =>
      have hlive : (s.workers i).phase ≠ .none := by
        rw [ne_eq, ← (hphases i).proc, hproc]
        simp
      have hnew : ((s.workers i).sampleRss (rss i)).rss = rss i := if_pos (by simp [hproc])
      have hread : (m.workers i).read (rss i).toNat = { m.workers i with rss := (rss i).toNat } :=
        if_pos (by simp [Policy.Worker.alive, hphase, hlive])
      rw [hread]
      exact ⟨hphase, hjob, congrArg UInt64.toNat hnew.symm, hstart, fun hnone => absurd hnone hlive,
        hnew.symm ▸ hrss i⟩
  -- the growth of a running slot is the same number on both sides
  have hgrowth : ∀ i, ((s.sampleWorkers rss).workers i).running = true →
      ((s.sampleWorkers rss).workers i).growth.toNat = (o.workers i).growth := by
    intro i hr
    rw [Worker.growth_toNat, Policy.Worker.growth, (hworker i).rss, (hworker i).startRss hr]
  -- so the new estimates have the same upper bounds
  have hlearned : (s.sampleWorkers rss).estimate.toNat = max o.estimate o.learned := by
    refine eq_of_forall_ge_iff fun b => ?_
    rw [max_le_iff, Policy.State.learned, Finset.sup_le_iff]
    refine (foldl_max_toNat (List.finRange n) s.estimate b).trans ?_
    rw [← h.estimate]
    refine and_congr_right fun _ => ?_
    have hrunning : ∀ i, (o.workers i).running = ((s.sampleWorkers rss).workers i).running :=
      fun i => (hworker i).running
    constructor
    · intro hall i _
      split
      · next hr =>
        have hs := (hrunning i).symm.trans hr
        rw [← hgrowth i hs]
        exact hall i (List.mem_finRange i) hs
      · exact Nat.zero_le b
    · intro hall i _ hr
      have hle := hall i (Finset.mem_univ i)
      rw [if_pos ((hrunning i).trans hr), ← hgrowth i hr] at hle
      exact hle
  refine ⟨hworker, h.todo, h.solo, h.mode, hlearned.symm, ?_, h.recorded⟩
  -- and the estimate stays small
  have hbound : (s.sampleWorkers rss).estimate.toNat ≤ 2 ^ 40 - 1 := by
    refine (foldl_max_toNat (List.finRange n) s.estimate _).mpr ⟨Nat.le_pred_of_lt h.small, ?_⟩
    intro i _ _
    show ((s.sampleWorkers rss).workers i).growth.toNat ≤ 2 ^ 40 - 1
    have hsmall := (hworker i).small
    rw [Worker.growth_toNat]
    omega
  omega

/-- Over the budget the largest busy worker is killed. -/
theorem sampleMemory (h : s.Shows m) (hn : n < 2 ^ 16) (hbudget : s.budget.toNat = budget)
    (hphases : s.PhasesConsistent) {own : UInt64} {rss : Fin n → UInt64} {s' : Scheduler n}
    (hown : own.toNat < 2 ^ 40) (hrss : ∀ i, (rss i).toNat < 2 ^ 40)
    (hsample : s.sampleMemory own rss = .ok s') :
    ∃ m', (policy n budget).Leads System.anyEnv m m' ∧ s'.Shows m' := by
  obtain ⟨o, ho⟩ : ∃ o, o = m.doObserve fun i => (rss i).toNat := ⟨_, rfl⟩
  have hsampled := h.sampleWorkers hphases hrss ho
  have hobserve : (policy n budget).Leads System.anyEnv m o :=
    leads_of_step (e := .observe _) (congrArg some ho.symm)
  -- the room check is exact, and does not see the new estimate
  have hexact : (s.sampleWorkers rss).totalRss own ≤ s.budget ↔
      own.toNat + o.totalRss ≤ budget := by
    rw [totalRss_le_iff hn hown hrss, hbudget]
    exact iff_of_eq (congrArg (· ≤ budget) (hsampled.exactRss own))
  have hphase : ∀ i, (o.workers i).phase = ((s.sampleWorkers rss).workers i).phase := fun i =>
    (hsampled.worker i).phase
  have hlargest := largestBusy_largest (s.sampleWorkers rss)
  -- nobody is busy, or there is a largest one
  cases hvictim : (s.sampleWorkers rss).largestBusy with
  | none =>
    rw [hvictim] at hlargest
    have hidle : ∀ i, (o.workers i).phase ≠ .busy := fun i => by
      rw [hphase]
      exact hlargest i (List.mem_finRange i)
    have hs' : s' = s.sampleWorkers rss := by
      rw [Scheduler.sampleMemory, hvictim, ite_self] at hsample
      exact (Except.ok.inj hsample).symm
    rw [hs']
    obtain rfl | hpos := Nat.eq_zero_or_pos n
    · -- nobody is there to be sampled
      have hnone : o.learned = 0 := by simp [Policy.State.learned]
      rw [hnone, Nat.max_zero] at hsampled
      exact ⟨o, hobserve, hsampled⟩
    · have hbusy : o.nPhase .busy = 0 :=
        countSlots_eq_zero.mpr fun i => decide_eq_false (hidle i)
      have hstep : Policy.step budget o (.sample own.toNat ⟨0, hpos⟩) =
          some (o.doSample budget own.toNat ⟨0, hpos⟩) := if_pos (.inr hbusy)
      have hsame : o.doSample budget own.toNat ⟨0, hpos⟩ =
          { o with estimate := max o.estimate o.learned } :=
        if_neg fun hover => hidle _ hover.2
      exact ⟨_, hobserve.trans (leads_of_step hstep), hsame ▸ hsampled⟩
  | some v =>
    rw [hvictim] at hlargest
    have hbusy : (o.workers v).phase = .busy := (hphase v).trans hlargest.1
    have hmax : o.isLargestBusy v = true := by
      refine decide_eq_true ⟨hbusy, fun i hi => ?_⟩
      have hle := hlargest.2 i (List.mem_finRange i) ((hphase i).symm.trans hi)
      have hrssi : (o.workers i).rss = _ := (hsampled.worker i).rss
      have hrssv : (o.workers v).rss = _ := (hsampled.worker v).rss
      rw [hrssi, hrssv]
      exact UInt64.le_iff_toNat_le.mp hle
    have hstep : Policy.step budget o (.sample own.toNat v) =
        some (o.doSample budget own.toNat v) := if_pos (.inl hmax)
    refine ⟨_, hobserve.trans (leads_of_step hstep), ?_⟩
    rw [Scheduler.sampleMemory] at hsample
    split at hsample
    · -- there is room
      next hroom =>
      obtain rfl := Except.ok.inj hsample
      have hsame : o.doSample budget own.toNat v =
          { o with estimate := max o.estimate o.learned } :=
        if_neg fun hover => Nat.not_lt.mpr (hexact.mp hroom) hover.1
      rw [hsame]
      exact hsampled
    · -- there is none, and the worker is killed
      next hroom =>
      rw [hvictim] at hsample
      dsimp only at hsample
      split at hsample
      · cases hsample
      obtain rfl := Except.ok.inj hsample
      have hkill : o.doSample budget own.toNat v =
          ({ o with estimate := max o.estimate o.learned } : Policy.State AttrPath n).doEnter v
            .killed :=
        if_pos ⟨Nat.not_le.mp (mt hexact.mpr hroom), hbusy⟩
      rw [hkill]
      refine (hsampled.setWorker v ?_).record ⟨fun _ => rfl, fun _ => rfl, rfl⟩
      obtain ⟨-, hjob, hmem, hstart, -, hsmall⟩ := hsampled.worker v
      exact ⟨rfl, hjob, hmem, fun _ => hstart (Worker.running_iff.mpr (.inl hlargest.1)),
        fun hp => (by cases hp), hsmall⟩

end Shows

/-! ## Every run -/

/-- Memory is read in MiB, and far from what `size_t` holds. -/
def Metered : Config n → Event n → Prop
  | _, .slot env => env.own.toNat < 2 ^ 40 ∧ env.rss.toNat < 2 ^ 40
  | _, .sample own rss => own.toNat < 2 ^ 40 ∧ ∀ i, (rss i).toNat < 2 ^ 40
  | _, .line _ _ rss => rss.toNat < 2 ^ 40
  | _, _ => True

/-- What the refinement asks of the environment. -/
structure Sensible (X : Externals) (c : Config n) (e : Event n) : Prop where
  answered : Answered X Echo c e
  careful : Careful c e
  metered : Metered c e

/-- A turn of a pass. -/
theorem Shows.turn (h : s.Shows m) (hn : n < 2 ^ 16) (hbudget : s.budget.toNat = budget)
    (hphases : s.PhasesConsistent) {k k' : Nat} (halone : s.mode = .solo → s.Alone (some k))
    {i : Fin n} {env : SlotEnv} {s' : Scheduler n} (hcareful : ¬s.Overlooks i env.own)
    (hown : env.own.toNat < 2 ^ 40) (hrss : env.rss.toNat < 2 ^ 40)
    (hturn : Turn X s k i env k' s') :
    ∃ m', (policy n budget).Leads System.anyEnv m m' ∧ s'.Shows m' := by
  -- one case for each thing that a turn can do
  cases hturn with
  | skip => exact ⟨m, .refl, h⟩
  | exit hidle hfinished => exact h.sendExit hidle hfinished
  | sent hidle htake _ => exact h.takeJob hn hbudget hown hidle hcareful htake
  | unsent hidle _ htake heof =>
    -- the job is taken, and given back
    obtain ⟨m₁, hleads₁, hshows₁⟩ := h.takeJob hn hbudget hown hidle hcareful htake
    have hmove : Move X (fun _ _ _ => True) ⟨s, some k⟩ ⟨_, some k⟩ := takeJob_move hidle htake
    obtain ⟨m₂, hleads₂, hshows₂⟩ := hshows₁.onEof (phasesConsistent_move hphases hmove) heof
    exact ⟨m₂, hleads₁.trans hleads₂, hshows₂⟩
  | spawn hnone hk hfinished =>
    refine h.spawn hphases hnone hfinished (fun hmode => ?_) hrss
    obtain ⟨hle, hdead⟩ := (halone hmode).spawnable k rfl
    exact hdead (by omega)

/-- **The scheduler keeps to the policy.** -/
theorem refines_policy (X : Externals) (nrWorkers maxMemorySize : UInt64) (resolver : Bool)
    (hn : n < 2 ^ 16) :
    System.Simulation (system X nrWorkers maxMemorySize resolver) (Sensible X)
      (policy n (nrWorkers * maxMemorySize).toNat) System.anyEnv
      fun (c : Config n) m => c.sched.Shows m where
  init := shows_init n nrWorkers maxMemorySize resolver
  step {c c' m e} hc _ hshows hsensible hstep := by
    have hvisited : Visited X Echo nrWorkers maxMemorySize resolver c.snapshot :=
      Visited.of_reachable (hc.mono fun _ _ h => h.answered)
    have hphases : c.sched.PhasesConsistent := phasesConsistent_visited hvisited
    have hconserved : c.sched.Conserved := conserved_visited (fun _ _ _ h => h) hvisited
    have hbudget : c.sched.budget.toNat = (nrWorkers * maxMemorySize).toNat :=
      congrArg (fun s : Scheduler n => s.budget.toNat) (withBudget_visited hvisited).symm
    have halone := alone_visited hvisited
    obtain ⟨hanswered, hcareful, hmetered⟩ := hsensible
    -- each event of the scheduler is one of six steps
    cases step_steps hstep with
    | began _ => exact hshows.beginDispatch
    | turned hlt hslot =>
      exact hshows.turn hn hbudget hphases halone (hcareful hlt) hmetered.1 hmetered.2
        (dispatchSlot_turn hslot)
    | ended _ => exact ⟨m, .refl, hshows⟩
    | sampled hs' => exact hshows.sampleMemory hn hbudget hphases hmetered.1 hmetered.2 hs'
    | read _ hs' => exact hshows.onLine hphases hconserved hmetered hanswered hs'
    | hungUp _ hs' => exact hshows.onEof hphases hs'

instance : (c : Config n) → (e : Event n) → Decidable (Metered c e)
  | _, .slot env =>
    inferInstanceAs (Decidable (env.own.toNat < 2 ^ 40 ∧ env.rss.toNat < 2 ^ 40))
  | _, .sample own rss =>
    inferInstanceAs (Decidable (own.toNat < 2 ^ 40 ∧ ∀ i, (rss i).toNat < 2 ^ 40))
  | _, .line _ _ rss => inferInstanceAs (Decidable (rss.toNat < 2 ^ 40))
  | _, .beginDispatch | _, .endDispatch | _, .eof _ _ => .isTrue trivial

/-- The environment of a concrete run, whose passes wait for killed workers. -/
def sensibleCheck (c : Config 2) (e : Event 2) : Bool :=
  answeredCheck (Externals.plain [rootJson]) (fun path response _ => response.attrPath = path) c e ∧
    Patient c e ∧ Metered c e

/-- The check of the concrete run is enough. -/
theorem sensible_of_check (c : Config 2) (e : Event 2) (h : sensibleCheck c e = true) :
    Sensible (Externals.plain [rootJson]) c e := by
  obtain ⟨hanswered, hpatient, hmetered⟩ := of_decide_eq_true h
  refine ⟨answered_of_check (fun path response _ hecho => ?_) c e hanswered, hpatient.careful,
    hmetered⟩
  show response.attrPath = path
  exact of_decide_eq_true hecho

/-- Every event of the run passes the check. -/
theorem waitRun_sensible :
    ((system (Externals.plain [rootJson]) 2 1000 false).run sensibleCheck
      (system (Externals.plain [rootJson]) 2 1000 false).init waitRun).isSome = true := by
  decide +kernel

/-- The policy can have killed the first worker and have the second one evaluate `b`, as the
scheduler does at the end of the run. -/
theorem refines_policy_waitRun :
    ∃ m : Policy.State AttrPath 2, (policy 2 2000).Reachable System.anyEnv m ∧
      (m.workers 0).phase = .killed ∧ (m.workers 1).phase = .busy ∧ [lit "b"] ∉ m.todo := by
  let c := (system (Externals.plain [rootJson]) 2 1000 false).after sensibleCheck waitRun
    waitRun_sensible
  obtain ⟨m, hm, hshows⟩ := (refines_policy (Externals.plain [rootJson]) 2 1000 false
    (by decide)).reachable (System.reachable_after sensible_of_check waitRun waitRun_sensible)
  have hphases : (c.sched.workers 0).phase = .killed ∧ (c.sched.workers 1).phase = .busy := by
    decide +kernel
  have htodo : c.sched.todo.contains [lit "b"] = false := by decide +kernel
  refine ⟨m, hm, (hshows.worker 0).phase.trans hphases.1, (hshows.worker 1).phase.trans hphases.2,
    fun hmem => ?_⟩
  have hleft := Std.ExtTreeSet.mem_iff_contains.mp ((hshows.todo _).mp hmem)
  exact Bool.false_ne_true (htodo.symm.trans hleft)

end Scheduler

end NixEvalJobs
