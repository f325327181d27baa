import NixEvalJobs.JsonText
import NixEvalJobs.Scheduler.State

/-!
# Scheduler — event handlers

The member functions of `class Scheduler`, each a function from the state and
the answers of the operating system (resident memory, whether a write
succeeded, what `waitpid` returned) to the next state or the exception that
leaves it.

`dispatch` is a pass over the slots, `dispatchSlot` is its loop body; the
count of workers it may still spawn is computed before the loop and handed
from slot to slot.
-/

namespace NixEvalJobs

/-- The libraries the scheduler calls. -/
structure Externals extends StorePaths, JsonText

/-- Libraries that know the given values and their texts. -/
def Externals.plain (values : List Json) : Externals :=
  { StorePaths.plain, JsonText.plain values with }

/-- The words of the protocol. -/
def msgNext : Str := lit "next"
def msgRestart : Str := lit "restart"
def msgExit : Str := lit "exit"
def msgDo : Str := lit "do "

/-! ## Reaping a worker (`proc.cc`) -/

/-- How a process ended. -/
inductive ExitStatus where
  | exited (code : Nat)
  | signaled (signal : Nat)
  deriving DecidableEq

/-- The number of SIGKILL. -/
def sigkill : Nat := 9

/-- `waitpid` with `WNOHANG`. -/
inductive WaitResult where
  | failed
  | notYet
  | status (status : ExitStatus)

/-- What the two `waitpid` calls of `throwExited` return. The second one blocks
and follows a SIGKILL; `none` is a failed call. -/
structure Wait where
  nohang : WaitResult
  blocking : Option ExitStatus

/-- The exit status `throwExited` gets to see. -/
def Wait.result (wait : Wait) : Option ExitStatus :=
  match wait.nohang with
  | .failed => none
  | .notYet => wait.blocking
  | .status status => some status

/-- `Proc::throwExited`. `.ok ()` is `WorkerKilled`, which the caller catches. -/
def throwExited (doing : Str) (wait : Wait) : Except Error Unit :=
  match wait.result with
  | none => throw (.nix (lit "while %s, waitpid for evaluation worker failed") [doing])
  | some (.signaled signal) =>
    if signal = sigkill then pure ()
    else throw (.nix (lit ("while %s, evaluation worker crashed with signal %d (%s); enable " ++
      "coredumps for a backtrace")) [doing, decimal signal])
  | some (.exited code) =>
    if code = 1 then
      throw (.nix (lit ("while %s, evaluation worker exited with exit code 1 (possible " ++
        "infinite recursion)")) [doing])
    else throw (.nix (lit "while %s, evaluation worker exited with %d") [doing, decimal code])

/-! ## Recording responses -/

/-- A job whose aggregate members are not known yet is printed later. -/
def Response.hasPendingConstituents (response : Response) : Bool :=
  match response.payload with
  | .job drv _ => !drv.constituents.namedConstituents.isEmpty
  | _ => false

/-- The error that ends the run, if the response is one. -/
def Payload.fatalError : Payload → Option Str
  | .error msg true => some msg
  | _ => none

/-- Only an error can be one. -/
theorem Payload.fatalError_isSome {payload : Payload} :
    payload.fatalError.isSome = true ↔ ∃ msg, payload = .error msg true := by
  unfold Payload.fatalError
  split
  · exact ⟨fun _ => ⟨_, rfl⟩, fun _ => rfl⟩
  · next hother => exact ⟨fun h => (by cases h), fun ⟨msg, hmsg⟩ => absurd hmsg (hother msg)⟩

/-- `parseResponse`: type errors of nlohmann are wrapped, other exceptions pass. -/
def parseResponse (X : Externals) (line : Str) : Except Error (Response × Json) :=
  let invalid : Error := .nix (lit "Received invalid JSON from worker: %s\n json: '%s'") [line]
  match X.parse line with
  | none => throw invalid
  | some json =>
    match Response.fromJson X.toStorePaths json with
    | .ok response => pure (response, json)
    | .error .json => throw invalid
    | .error e => throw e

namespace Scheduler

variable {n : Nat} (X : Externals)

/-- `emitResponse` with the line of a worker: the map entry, and the line unless it waits. -/
def emitResponse (s : Scheduler n) (response : Response) (json : Json) (dumped : Str) :
    Scheduler n :=
  { s with
    jobs := s.jobs.insert response.attr json
    stdout := if response.hasPendingConstituents then s.stdout else s.stdout ++ [dumped] }

/-- The response `emitError` records. -/
def errorResponse (attrPath : AttrPath) (msg : Str) : Response where
  attr := joinAttrPath attrPath
  attrPath := attrPath
  payload := .error msg false

/-- `emitError`, which puts the line together itself. -/
def emitError (s : Scheduler n) (attrPath : AttrPath) (msg : Str) : Except Error (Scheduler n) :=
  let response := errorResponse attrPath msg
  let json := response.toJson X.toStorePaths
  match X.dump json with
  | some dumped => pure (s.emitResponse response json dumped)
  -- `json.dump()` throws on a string that is not UTF-8
  | none => throw .json

/-! ## Jobs -/

/-- `w.startRss = w.rss`. -/
def startJob (s : Scheduler n) (idx : Fin n) : Scheduler n :=
  s.setWorker idx { s.workers idx with startRss := (s.workers idx).rss }

/-- `takeJob`: the path to hand to slot `idx`, if any. -/
def takeJob (s : Scheduler n) (idx : Fin n) (own : UInt64) :
    Except Error (Option (AttrPath × Source) × Scheduler n) :=
  if s.running > 0 ∧ (s.mode = .solo ∨ s.solo ≠ []) then
    pure (none, s) -- one at a time / drain before Solo
  else if s.mode = .solo then
    match s.solo.getLast? with
    | some path => pure (some (path, .solo), startJob { s with solo := s.solo.dropLast } idx)
    -- `solo.back()`
    | none => throw (.undefined .backOfEmpty)
  else if s.solo = [] ∧ s.fitsBudget own then
    match StdSet.first s.todo with
    | some path =>
      pure (some (path, .todo (s.admits own)), startJob { s with todo := s.todo.erase path } idx)
    | none => pure (none, s)
  else pure (none, s)

/-- `enterSolo`; the destructor of `Proc` ends the processes. -/
def enterSolo (s : Scheduler n) : Scheduler n :=
  { s with workers := fun _ => {}, mode := .solo }.record .enteredSolo

/-- `jobFinished`, given the resident memory of the worker. -/
def jobFinished (s : Scheduler n) (idx : Fin n) (rss : UInt64) : Scheduler n :=
  let w := (s.workers idx).sampleRss rss
  { s.setWorker idx { w with phase := .starting, attrPath := none } with
    estimate := max (s.estimate * decayPercent / 100) w.growth
    mode := .parallel }

/-- The largest busy worker, the first one of several. -/
def largestBusy (s : Scheduler n) : Option (Fin n) :=
  (List.finRange n).foldl (fun victim idx =>
    if (s.workers idx).phase = .busy ∧
        ∀ v ∈ victim, (s.workers idx).rss > (s.workers v).rss then some idx
    else victim) none

/-- The first loop of `sampleMemory`: the resident memory of every worker, and
the growth of the running ones. -/
def sampleWorkers (s : Scheduler n) (rss : Fin n → UInt64) : Scheduler n :=
  let workers idx := (s.workers idx).sampleRss (rss idx)
  let estimate := (List.finRange n).foldl (fun estimate idx =>
    if (workers idx).running then max estimate (workers idx).growth else estimate) s.estimate
  { s with workers, estimate }

/-- `victim->phase = Phase::Killed`, followed by a SIGKILL. -/
def evict (s : Scheduler n) (victim : Fin n) : Scheduler n :=
  (s.setWorker victim { s.workers victim with phase := .killed }).record (.evicted victim)

/-- `sampleMemory`, given the resident memory of the collector and the workers. -/
def sampleMemory (s : Scheduler n) (own : UInt64) (rss : Fin n → UInt64) :
    Except Error (Scheduler n) :=
  let s := s.sampleWorkers rss
  if s.totalRss own ≤ s.budget then pure s
  else
    match s.largestBusy with
    | none => pure s
    | some victim =>
      match (s.workers victim).proc with
      -- `victim->proc->pid()`
      | none => throw (.undefined .nullProc)
      | some _ => pure (s.evict victim)

/-! ## The end of a worker -/

/-- The error of a path that was killed when it was alone. -/
def budgetMessage (budget : UInt64) : Str :=
  lit "evaluation exceeded the memory budget of " ++ decimal budget.toNat ++
    lit " MiB (workers * max-memory-size) even when run alone"

/-- What `onKilled` does with the job of a running worker. -/
def retryJob (s : Scheduler n) (attrPath : AttrPath) : Except Error (Scheduler n) :=
  if s.mode = .solo then do
    let s ← s.emitError X attrPath (budgetMessage s.budget)
    return s.record (.budgetError attrPath)
  else pure ({ s with solo := s.solo ++ [attrPath] }.record (.requeued attrPath))

/-- The end of `onKilled`: `resetWorker(idx); mode = Mode::Parallel;`. -/
def forgetKilled (s : Scheduler n) (idx : Fin n) : Scheduler n :=
  { s.resetWorker idx with mode := .parallel }

/-- The log line of `onKilled`, which names the process of a worker we did not kill. -/
def logKilled (w : Worker) : Except Error Unit :=
  if w.phase = .killed then pure ()
  else
    match w.proc with
    | none => throw (.undefined .nullProc)
    | some _ => pure ()

/-- `onKilled`: the job is retried or given up, and the slot is forgotten. -/
def onKilled (s : Scheduler n) (idx : Fin n) : Except Error (Scheduler n) := do
  logKilled (s.workers idx)
  if (s.workers idx).running then
    -- `w.attrPath` is not null while the worker runs
    match (s.workers idx).attrPath with
    | some attrPath => do
      let s ← s.retryJob X attrPath
      return s.forgetKilled idx
    | none => throw (.undefined .nullPath)
  else pure (s.forgetKilled idx)

/-- What a worker was doing when its pipe closed. -/
def doing (w : Worker) : Str :=
  if w.running then lit "evaluating '" ++ joinAttrPath (w.attrPath.getD []) ++ lit "'"
  else lit "starting worker"

/-- `onEof`; whatever is not `WorkerKilled` leaves the loop. -/
def onEof (s : Scheduler n) (idx : Fin n) (wait : Wait) : Except Error (Scheduler n) :=
  let w := s.workers idx
  if w.phase = .exiting then pure (s.resetWorker idx)
  else
    match w.proc with
    | none => throw (.undefined .nullProc)
    | some _ => do
      throwExited (doing w) wait
      s.onKilled X idx

/-! ## Dispatching -/

/-- What a slot's turn in a dispatch pass may ask of the operating system. -/
structure SlotEnv where
  own : UInt64 := 0
  sent : Bool := true
  wait : Wait := ⟨.failed, none⟩
  proc : Option Proc := some ⟨1⟩
  rss : UInt64 := 0

/-- The part of `dispatch` before its loop. -/
def beginDispatch (s : Scheduler n) : Scheduler n :=
  if s.mode = .parallel ∧ s.solo ≠ [] ∧ s.running = 0 then s.enterSolo else s

/-- How many workers the pass may spawn. -/
def spawnable (s : Scheduler n) : Nat :=
  if s.mode = .solo then if s.anyWorkerAlive then 0 else 1
  -- no more workers than there are jobs to hand out
  else if s.solo = [] then s.todo.size - min s.todo.size (s.count .starting + s.count .idle)
  else 0

/-- Telling an idle worker to exit; the result of the write is ignored. -/
def sendExit (s : Scheduler n) (idx : Fin n) : Except Error (Scheduler n) :=
  match (s.workers idx).proc with
  | none => throw (.undefined .nullProc)
  | some _ =>
    return (s.setWorker idx { s.workers idx with phase := .exiting }).record (.toldExit idx)

/-- Handing the taken job to its slot. -/
def handOut (s : Scheduler n) (idx : Fin n) (path : AttrPath) (source : Source) :
    Scheduler n :=
  (s.setWorker idx { s.workers idx with attrPath := some path, phase := .busy }).record
    (.handedOut idx path source s.mode)

/-- `std::make_unique<Proc>(spawn)` throws when the process cannot be started. -/
def spawnWorker (s : Scheduler n) (idx : Fin n) (env : SlotEnv) : Except Error (Scheduler n) :=
  match env.proc with
  | none => throw .nixLib
  | some proc =>
    let w : Worker := { s.workers idx with proc := some proc, phase := .starting }
    return (s.setWorker idx (w.sampleRss env.rss)).record (.spawned idx)

/-- The loop body of `dispatch` for slot `idx`; the counter is `spawnable`. -/
def dispatchSlot (s : Scheduler n) (spawnable : Nat) (idx : Fin n) (env : SlotEnv) :
    Except Error (Nat × Scheduler n) := do
  let phase := (s.workers idx).phase
  if phase = .idle ∧ s.finished then
    return (spawnable, ← s.sendExit idx)
  else if phase = .idle then
    match ← s.takeJob idx env.own with
    | (none, s) => return (spawnable, s)
    | (some (path, source), s) =>
      let s := s.handOut idx path source
      -- `sendLine(MSG_DO + w.attrPath.dump())`
      match X.dump (.ofStrings path), (s.workers idx).proc with
      | none, _ => throw .json
      | _, none => throw (.undefined .nullProc)
      | some _, some _ =>
        if env.sent then return (spawnable, s)
        else return (spawnable, ← s.onEof X idx env.wait)
  -- a free slot gets a worker, if there is still something to do
  else if phase = .none ∧ spawnable > 0 ∧ !s.finished then
    return (spawnable - 1, ← s.spawnWorker idx env)
  else return (spawnable, s)

/-- The loop of `dispatch` over the remaining slots. -/
def dispatchSlots (env : Fin n → SlotEnv) :
    List (Fin n) → Nat → Scheduler n → Except Error (Scheduler n)
  | [], _, s => pure s
  | idx :: slots, spawnable, s => do
    let (spawnable, s) ← s.dispatchSlot X spawnable idx (env idx)
    dispatchSlots env slots spawnable s

/-- `dispatch`, given what the operating system answers in each turn. -/
def dispatch (s : Scheduler n) (env : Fin n → SlotEnv) : Except Error (Scheduler n) :=
  let s := s.beginDispatch
  dispatchSlots X env (List.finRange n) s.spawnable s

/-! ## Worker output -/

/-- The exception for a line that a starting worker should not have sent. -/
def unexpectedStartLine (line : Str) : Error :=
  let unexpected : Error := .nix (lit "unexpected line from worker: '%s'") [line]
  match X.parse line with
  | some (.object fields) =>
    match Fields.get fields (lit "error") with
    | none => unexpected
    | some (.string err) => if err ≠ [] then .nix (lit "worker error: %s") [err] else unexpected
    -- `json.value("error", std::string{})` throws on another type
    | some _ => .json
  | _ => unexpected

/-- `todo.insert` of the path of every listed attribute. -/
def addChildren (s : Scheduler n) (attrPath : AttrPath) (attrs : List Str) : Scheduler n :=
  { s with todo := attrs.foldl (fun todo attr => todo.insert (attrPath ++ [attr])) s.todo }

/-- What `onResponse` records of a decoded response: the children it lists, a job for the
resolver, or a line on standard output. -/
def recordResponse (s : Scheduler n) (response : Response) (json : Json) (line : Str) :
    Scheduler n :=
  match response.payload with
  | .attrs attrs => s.addChildren response.attrPath attrs
  | .job _ _ =>
    -- the resolver fills in `cacheStatus` and emits via its sink
    if s.cacheStatusResolver then { s with pushed := s.pushed ++ [response] }
    else s.emitResponse response json line
  | .error _ _ => s.emitResponse response json line

/-- What `onResponse` does before `jobFinished`. A fatal error is recorded and printed like
any other, and then thrown: the state it leaves is `recordResponse`. -/
def acceptResponse (s : Scheduler n) (response : Response) (json : Json) (line : Str) :
    Except Error (Scheduler n) :=
  let s := s.recordResponse response json line
  match response.payload.fatalError with
  | some error => throw (.nix (lit "%s") [error])
  | none => pure s

/-- `onResponse`. -/
def onResponse (s : Scheduler n) (idx : Fin n) (line : Str) (rss : UInt64) :
    Except Error (Scheduler n) := do
  let (response, json) ← parseResponse X line
  let s ← s.acceptResponse response json line
  return (s.record (.responded response json)).jobFinished idx rss

/-- `onLine`, by the phase of the worker. -/
def onLine (s : Scheduler n) (idx : Fin n) (line : Str) (rss : UInt64) :
    Except Error (Scheduler n) :=
  match (s.workers idx).phase with
  | .starting =>
    if line = msgNext then
      pure (s.setWorker idx { s.workers idx with phase := .idle })
    else if line = msgRestart then pure (s.resetWorker idx)
    else throw (unexpectedStartLine X line)
  | .busy => s.onResponse X idx line rss
  -- finished before the signal landed, retried anyway
  | .killed | .exiting => pure s
  | .none | .idle => throw (.nix (lit "unexpected line from idle worker: '%s'") [line])

/-! ## The event loop -/

/-- What one `fill` of a worker's pipe gives: complete lines (with the resident
memory at that time, in case one ends a job) and whether the pipe is closed. -/
structure ReadEnv where
  lines : List (Str × UInt64)
  eof : Bool
  wait : Wait

/-- The lines are read until the worker is gone. -/
def readLines (idx : Fin n) : List (Str × UInt64) → Scheduler n → Except Error (Scheduler n)
  | [], s => pure s
  | (line, rss) :: lines, s =>
    if (s.workers idx).proc.isSome then do
      let s ← s.onLine X idx line rss
      readLines idx lines s
    else pure s

/-- `readWorker`: a handler of an earlier line may have dropped the worker before its EOF. -/
def readWorker (s : Scheduler n) (idx : Fin n) (env : ReadEnv) : Except Error (Scheduler n) :=
  match (s.workers idx).proc with
  | none => throw (.undefined .nullProc) -- `w.proc->fill()`
  | some _ => do
    let s ← readLines X idx env.lines s
    if env.eof ∧ (s.workers idx).proc.isSome then s.onEof X idx env.wait else pure s

/-- One `poll`: whether the sampling interval has elapsed, and which pipes are
readable. Only slots that had a worker before are polled. -/
structure PollEnv (n : Nat) where
  sample : Option (UInt64 × (Fin n → UInt64))
  ready : Fin n → Option ReadEnv

/-- The readable ones among the polled slots, one after the other. -/
def readReady (ready : Fin n → Option ReadEnv) :
    List (Fin n) → Scheduler n → Except Error (Scheduler n)
  | [], s => pure s
  | idx :: polled, s => do
    let s ← match ready idx with
      | some read => s.readWorker X idx read
      | none => pure s
    readReady ready polled s

/-- `pollWorkers`: the memory is sampled before anything is read. -/
def pollWorkers (s : Scheduler n) (env : PollEnv n) : Except Error (Scheduler n) := do
  let polled := (List.finRange n).filter fun idx => (s.workers idx).proc.isSome
  let s ← match env.sample with
    | some (own, rss) => s.sampleMemory own rss
    | none => pure s
  readReady X env.ready polled s

/-- The condition of the loop in `run`. -/
def loops (s : Scheduler n) : Bool := !s.finished || s.anyWorkerAlive

/-- The environment of one round of the loop. -/
structure RoundEnv (n : Nat) where
  slots : Fin n → SlotEnv
  poll : PollEnv n

/-- `run`, for as many rounds as there are environments. The result is the state
after the last round and whether the loop has ended. -/
def run (s : Scheduler n) : List (RoundEnv n) → Except Error (Scheduler n × Bool)
  | [] => pure (s, !s.loops)
  | env :: envs =>
    if s.loops then do
      let s ← s.dispatch X env.slots
      let s ← s.pollWorkers X env.poll
      s.run envs
    else pure (s, true)

end Scheduler

end NixEvalJobs
