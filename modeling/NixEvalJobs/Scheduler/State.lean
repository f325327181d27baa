import NixEvalJobs.Response
import NixEvalJobs.Lib.Slots

/-!
# Scheduler — state

The data members of `class Scheduler` and its `const` helpers. The pool is a
function on `Fin n`, the number of workers is fixed for a run.

`trace` is no member of the class: it is the history of what the scheduler did,
newest first, which the properties speak about and the code never reads.
-/

namespace NixEvalJobs

/-- Pools of one and of two workers have literals for their slots. -/
instance neZero_one : NeZero 1 := ⟨by decide⟩

/-- The same for two workers, the smallest pool where one slot can wait for another. -/
instance neZero_two : NeZero 2 := ⟨by decide⟩

/-! ## Data -/

/-- The life of a slot: `Starting` and `Busy` wait for the worker's line, `Idle` waits for a
job, `Killed` for the EOF after a SIGKILL, `Exiting` for the EOF after `exit`. -/
inductive Phase where
  /-- No process in the slot. -/
  | none
  | starting
  | idle
  | busy
  | killed
  | exiting
  deriving DecidableEq, Repr

/-- `Solo` runs one job at a time, alone, after it was evicted. -/
inductive Mode where
  | parallel
  | solo
  deriving DecidableEq, Repr

/-- `Proc`: what the collector holds of a worker process. Its pipes and its exit
status are the environment's. -/
structure Proc where
  pid : Nat
  deriving DecidableEq

/-- A slot of the pool. `attrPath` is what the worker was sent last, `startRss` the memory
it held then, and `rss` the last sample. -/
structure Worker where
  proc : Option Proc := none
  phase : Phase := .none
  attrPath : Option AttrPath := none
  rss : UInt64 := 0
  startRss : UInt64 := 0

/-- Where a dispatched path was taken from; for `todo` the history keeps whether
the guard of the class comment held, which counts killed workers too. -/
inductive Source where
  | solo
  | todo (admitted : Bool)
  deriving DecidableEq

/-- One entry of the history. -/
inductive Effect (n : Nat) where
  /-- `todo` and the running jobs are done, `dispatch` turns to the queue `solo`. -/
  | enteredSolo
  /-- A process was forked for the slot. -/
  | spawned (idx : Fin n)
  /-- The worker was sent `exit`. -/
  | toldExit (idx : Fin n)
  /-- The worker was sent a path. -/
  | handedOut (idx : Fin n) (path : AttrPath) (source : Source) (mode : Mode)
  /-- The worker was killed to get back under the budget. -/
  | evicted (idx : Fin n)
  /-- The worker's line was parsed and its response taken over. -/
  | responded (response : Response) (json : Json)
  /-- The EOF of a killed worker gave its path back. -/
  | requeued (path : AttrPath)
  /-- A job that ran alone exceeded the budget and got an error instead. -/
  | budgetError (path : AttrPath)

/-- `Scheduler` together with what it writes: the `JobMap`, the lines on standard
output and the responses pushed to the cache status resolver. -/
structure Scheduler (n : Nat) where
  cacheStatusResolver : Bool
  budget : UInt64
  /-- Paths to be dispatched, in the order of `std::set`. -/
  todo : StdSet AttrPath
  /-- Paths of evicted jobs; `takeJob` takes from the back. -/
  solo : List AttrPath
  mode : Mode
  /-- How much a job is expected to grow, in MiB. -/
  estimate : UInt64
  workers : Fin n → Worker
  jobs : StdMap Str Json
  stdout : List Str
  pushed : List Response
  trace : List (Effect n)

/-! ## Workers -/

namespace Worker

/-- The worker has a job in flight, be it one whose process was killed. -/
def running (w : Worker) : Bool := w.phase = .busy ∨ w.phase = .killed

/-- `sampleRss`, given what `residentMemoryMiB` reads. -/
def sampleRss (w : Worker) (residentMemoryMiB : UInt64) : Worker :=
  { w with rss := if w.proc.isSome then residentMemoryMiB else 0 }

/-- How much the worker has grown over its job; 0 rather than an underflow. -/
def growth (w : Worker) : UInt64 := if w.rss > w.startRss then w.rss - w.startRss else 0

/-- A running worker that evaluates `path`. -/
def holds (path : AttrPath) (w : Worker) : Bool := w.running ∧ w.attrPath = some path

/-- A slot after `resetWorker` runs nothing. -/
@[simp] theorem running_default : ({} : Worker).running = false := rfl

/-- And it holds no path. -/
@[simp] theorem holds_default (path : AttrPath) : ({} : Worker).holds path = false := rfl

/-- Sampling changes the memory reading of a worker and nothing the handlers branch on. -/
@[simp] theorem sampleRss_proc (w : Worker) (r : UInt64) : (w.sampleRss r).proc = w.proc := rfl

@[simp] theorem sampleRss_phase (w : Worker) (r : UInt64) : (w.sampleRss r).phase = w.phase := rfl

@[simp] theorem sampleRss_attrPath (w : Worker) (r : UInt64) :
    (w.sampleRss r).attrPath = w.attrPath := rfl

/-- The two phases of a running worker. -/
theorem running_iff {w : Worker} : w.running = true ↔ w.phase = .busy ∨ w.phase = .killed := by
  simp [running]

/-- Holding a path by phase and path. -/
theorem holds_iff {path : AttrPath} {w : Worker} :
    w.holds path = true ↔ (w.phase = .busy ∨ w.phase = .killed) ∧ w.attrPath = some path := by
  simp [holds, running]

end Worker

/-! ## The pool -/

namespace Scheduler

variable {n : Nat}

/-- `INITIAL_ESTIMATE`. -/
def initialEstimate : UInt64 := 512

/-- `DECAY_PERCENT`. -/
def decayPercent : UInt64 := 98

/-- The constructor: `todo` holds the empty path. -/
def init (n : Nat) (nrWorkers maxMemorySize : UInt64) (cacheStatusResolver : Bool) :
    Scheduler n where
  cacheStatusResolver
  budget := nrWorkers * maxMemorySize
  todo := (∅ : StdSet AttrPath).insert []
  solo := []
  mode := .parallel
  estimate := initialEstimate
  workers := fun _ => {}
  jobs := ∅
  stdout := []
  pushed := []
  trace := []

/-- How many jobs are in flight. -/
def running (s : Scheduler n) : Nat := countSlots Worker.running s.workers

/-- `finished`: the loop of `run` ends here. -/
def finished (s : Scheduler n) : Bool := s.todo.isEmpty ∧ s.solo = [] ∧ s.running = 0

/-- `totalRss`, given the resident memory of the collector itself. -/
def totalRss (s : Scheduler n) (own : UInt64) : UInt64 :=
  (List.finRange n).foldl (fun sum idx => sum + (s.workers idx).rss) own

/-- `anyWorkerAlive`: some slot still has a process. -/
def anyWorkerAlive (s : Scheduler n) : Bool := ∃ idx, (s.workers idx).proc.isSome

/-- How many workers are in the given phase. -/
def count (s : Scheduler n) (phase : Phase) : Nat :=
  countSlots (fun w => w.phase = phase) s.workers

/-- The room check for `jobs` jobs in flight and one more, in `size_t`. -/
def hasRoom (s : Scheduler n) (own : UInt64) (jobs : Nat) : Bool :=
  s.totalRss own + UInt64.ofNat (jobs + 1) * s.estimate ≤ s.budget

/-- `fitsBudget`: with nothing busy a job is let in whatever the memory, otherwise there
must be room. Only `Busy` workers are counted. -/
def fitsBudget (s : Scheduler n) (own : UInt64) : Bool :=
  s.count .busy = 0 ∨ s.hasRoom own (s.count .busy)

/-- The dispatch guard as the class comment states it, over all running jobs. -/
def admits (s : Scheduler n) (own : UInt64) : Bool :=
  s.running = 0 ∨ s.hasRoom own s.running

/-- Assignment to a slot of `workers`. -/
def setWorker (s : Scheduler n) (idx : Fin n) (w : Worker) : Scheduler n :=
  { s with workers := Function.update s.workers idx w }

/-- Adds to the history, which the code does not have. -/
def record (s : Scheduler n) (e : Effect n) : Scheduler n := { s with trace := e :: s.trace }

/-- `resetWorker`: `Worker{}` also kills the old process, if there is one. -/
def resetWorker (s : Scheduler n) (idx : Fin n) : Scheduler n := s.setWorker idx {}

/-! ### What the setters change -/

section Setters

variable (s : Scheduler n) (idx : Fin n) (w : Worker) (e : Effect n)

/-- The setters touch their own field only; with these lemmas no proof has to unfold them. -/
@[simp] theorem setWorker_workers :
    (s.setWorker idx w).workers = Function.update s.workers idx w := rfl
@[simp] theorem setWorker_todo : (s.setWorker idx w).todo = s.todo := rfl
@[simp] theorem setWorker_solo : (s.setWorker idx w).solo = s.solo := rfl
@[simp] theorem setWorker_mode : (s.setWorker idx w).mode = s.mode := rfl
@[simp] theorem setWorker_jobs : (s.setWorker idx w).jobs = s.jobs := rfl
@[simp] theorem setWorker_trace : (s.setWorker idx w).trace = s.trace := rfl
@[simp] theorem setWorker_cacheStatusResolver :
    (s.setWorker idx w).cacheStatusResolver = s.cacheStatusResolver := rfl

/-- The history is not part of what the program acts on. -/
@[simp] theorem record_workers : (s.record e).workers = s.workers := rfl
@[simp] theorem record_todo : (s.record e).todo = s.todo := rfl
@[simp] theorem record_solo : (s.record e).solo = s.solo := rfl
@[simp] theorem record_mode : (s.record e).mode = s.mode := rfl
@[simp] theorem record_jobs : (s.record e).jobs = s.jobs := rfl
@[simp] theorem record_trace : (s.record e).trace = e :: s.trace := rfl
@[simp] theorem record_cacheStatusResolver :
    (s.record e).cacheStatusResolver = s.cacheStatusResolver := rfl

end Setters

/-- Nothing runs exactly when no slot does. -/
theorem running_eq_zero {s : Scheduler n} :
    s.running = 0 ↔ ∀ idx, (s.workers idx).running = false :=
  countSlots_eq_zero

/-- No worker is alive exactly when every slot lost its process. -/
theorem anyWorkerAlive_eq_false {s : Scheduler n} :
    s.anyWorkerAlive = false ↔ ∀ idx, (s.workers idx).proc = none := by
  simp [anyWorkerAlive]

/-- `finished` by its three conjuncts, in the spelling the invariants use. -/
theorem finished_iff {s : Scheduler n} :
    s.finished = true ↔ s.todo = ∅ ∧ s.solo = [] ∧ s.running = 0 := by
  simp [finished]

end Scheduler

end NixEvalJobs
