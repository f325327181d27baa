import NixEvalJobs.Scheduler.Pool

/-!
# Scheduler — eviction, with the worker processes

A worker that the scheduler evicts is marked `Killed`, gets a SIGKILL, and is
retried when its pipe closes. What `waitpid` then returns is decided by the
process, so here the scheduler runs together with its processes: each has a
position in `worker`/`processJobRequest` and two pipes, and takes its steps at any
time between the events of the scheduler.

Signals do not reach a process that has already exited. A worker that answered,
wrote `restart` and exited before the signal keeps its exit status 0; its lines
are dropped because the slot is `Killed`, and `throwExited` raises "exited with 0"
although the phase comment says "finished before the signal landed, retried
anyway".

* `killed_eof_handled` — while every evicted worker is still there, the
  end-of-file of a killed one raises nothing and retries or gives up its job.
* `exitedVictim_throws` — a run in which the victim has exited.
-/

namespace NixEvalJobs

/-! ## Worker processes -/

/-- Where a process is in `worker`. -/
inductive WorkerLoc where
  | offering                      -- about to write `next`
  | reading                       -- in `fromReader.readLine()`
  | evaluating (path : AttrPath)
  | restarting                    -- `Next::Restart`, about to write `restart`
  | returning
  deriving DecidableEq

/-- A worker process, once it has read its configuration: `input` are the lines
it has not read, `output` the ones the collector has not read. -/
structure Process where
  loc : WorkerLoc := .offering
  input : List Str := []
  output : List Str := []
  status : Option ExitStatus := none

/-- A step of a worker process, between two calls of the system. -/
inductive Act where
  /-- `worker` writes `next`. -/
  | offer
  /-- `processJobRequest` reads a command. -/
  | read
  /-- It writes the response, and decides by its memory whether to start over. -/
  | respond (response : Response) (restart : Bool)
  /-- It writes `restart`. -/
  | restart
  /-- It returns from `worker`, and the process ends with status 0. -/
  | exit

namespace Process

variable (X : Externals)

/-- The command that `processJobRequest` has read. -/
def command (p : Process) (line : Str) : Option Process :=
  if line = msgExit then some { p with loc := .returning }
  else if msgDo.isPrefixOf line then
    match X.parse (line.drop msgDo.length) with
    | some json =>
      match json.asStrings with
      | .ok path => some { p with loc := .evaluating path }
      | .error _ => none
    | none => none
  else none

/-- A step of a worker without faults: it answers for the path it was sent. -/
def act (p : Process) (a : Act) : Option Process :=
  match p.status, p.loc, a with
  | none, .offering, .offer => some { p with loc := .reading, output := p.output ++ [msgNext] }
  | none, .reading, .read =>
    match p.input with
    | line :: input => { p with input }.command X line
    | [] => none
  | none, .evaluating path, .respond response restart =>
    if response.attr = joinAttrPath path ∧ response.attrPath = path then
      (X.dump (response.toJson X.toStorePaths)).map fun line =>
        { p with
          loc := if restart then .restarting else .offering
          output := p.output ++ [line] }
    else none
  | none, .restarting, .restart =>
    some { p with loc := .returning, output := p.output ++ [msgRestart] }
  | none, .returning, .exit => some { p with status := some (.exited 0) }
  | _, _, _ => none

/-- A line from the collector. -/
def receive (p : Process) (line : Str) : Process :=
  if p.status = none then { p with input := p.input ++ [line] } else p

/-- SIGKILL; a process that has ended keeps its status. -/
def kill (p : Process) : Process := { p with status := p.status.or (some (.signaled sigkill)) }

/-- What the collector did to the process of a slot, by what became of the slot. -/
def follow (p : Process) (before after : Worker) : Process :=
  match before.phase, after.phase with
  | .none, .starting => {}
  | .idle, .exiting => p.receive msgExit
  | .idle, .busy => p.receive (msgDo ++ (X.dump (.ofStrings (after.attrPath.getD []))).getD [])
  | .busy, .killed => p.kill
  | _, _ => p

end Process

/-! ## The joint system -/

/-- The scheduler and a process for each slot. The process of an empty slot is not used. -/
structure Joint (n : Nat) where
  config : Config n
  procs : Fin n → Process

/-- Either a process takes a step or an event of the collector happens. -/
inductive JointEvent (n : Nat) where
  | act (idx : Fin n) (a : Act)
  | collector (e : Event n)

namespace Joint

variable {n : Nat} (X : Externals)

/-- What the processes decide about an event of the scheduler: writes reach a
process that lives, lines come from its pipe, and the pipe closes with the process,
whose status `waitpid` returns. -/
def allows (j : Joint n) : Event n → Bool
  | .slot env =>
    match j.config.pass with
    | some pass =>
      if h : pass.idx < n then
        env.sent = (j.procs ⟨pass.idx, h⟩).status.isNone ∧
          (env.sent = false → env.wait.result = (j.procs ⟨pass.idx, h⟩).status)
      else true
    | none => true
  | .line idx line _ => (j.procs idx).output.head? = some line
  | .eof idx wait =>
    (j.procs idx).output = [] ∧ (j.procs idx).status ≠ none ∧
      wait.result = (j.procs idx).status
  | _ => true

/-- The line of an event is read from its pipe. -/
def consume (procs : Fin n → Process) : Event n → Fin n → Process
  | .line idx _ _ =>
    Function.update procs idx { procs idx with output := (procs idx).output.tail }
  | _ => procs

/-- One step of the two. The processes notice what the scheduler did by their pipes and by
signals only. -/
def step (j : Joint n) : JointEvent n → Option (Joint n)
  | .act idx a =>
    -- only a process that has been spawned runs
    if (j.config.sched.workers idx).proc.isSome then
      ((j.procs idx).act X a).map fun p => { j with procs := Function.update j.procs idx p }
    else none
  | .collector e =>
    if j.allows e then
      (Scheduler.step X j.config e).map fun config =>
        { config
          procs := fun i => (consume j.procs e i).follow X (j.config.sched.workers i)
            (config.sched.workers i) }
    else none

/-- The two together, from the start of `Scheduler::run`. -/
def system (nrWorkers maxMemorySize : UInt64) (cacheStatusResolver : Bool) :
    System (Joint n) (JointEvent n) where
  init := ⟨(Scheduler.system X nrWorkers maxMemorySize cacheStatusResolver).init, fun _ => {}⟩
  step := step X

/-- The worker that this event would evict has not exited yet. -/
def victimAlive (j : Joint n) : JointEvent n → Bool
  | .collector (.sample own rss) =>
    let s := j.config.sched.sampleWorkers rss
    s.totalRss own ≤ s.budget ∨ ∀ v ∈ s.largestBusy, (j.procs v).status = none
  | _ => true

end Joint

/-! ## Running slots -/

namespace Scheduler

variable {n : Nat} {X : Externals} {nrWorkers maxMemorySize : UInt64} {resolver : Bool}

/-- The four things that can become of a slot, as far as running jobs go. -/
inductive SlotChange (X : Externals) (s : Scheduler n) (e : Event n) (i : Fin n) (w : Worker) :
    Prop where
  | stopped : w.running = false → SlotChange X s e i w
  | kept : w.phase = (s.workers i).phase → w.attrPath = (s.workers i).attrPath →
      SlotChange X s e i w
  | taken {path : AttrPath} : (s.workers i).phase = .idle → w.phase = .busy →
      w.attrPath = some path → (X.dump (.ofStrings path)).isSome = true → SlotChange X s e i w
  | evicted {own : UInt64} {rss : Fin n → UInt64} : e = .sample own rss →
      ¬(s.sampleWorkers rss).totalRss own ≤ (s.sampleWorkers rss).budget →
      (s.sampleWorkers rss).largestBusy = some i → (s.workers i).phase = .busy →
      w.phase = .killed → w.attrPath = (s.workers i).attrPath → SlotChange X s e i w

/-- Every event leaves a slot in one of the four ways. -/
theorem step_slotChange {c c' : Config n} {e : Event n} (h : step X c e = some c') (i : Fin n) :
    SlotChange X c.sched e i (c'.sched.workers i) := by
  have hstopped : ∀ {phase}, (c'.sched.workers i).phase = phase → phase ≠ .busy →
      phase ≠ .killed → SlotChange X c.sched e i (c'.sched.workers i) :=
    fun hphase hbusy hkilled => .stopped (running_of_phase hphase hbusy hkilled)
  -- five of the eight kinds of steps leave the slot without a job
  cases step_slotStep h i with
  | kept hphase _ hpath _ => exact .kept hphase hpath
  | reset hw => exact .stopped (by rw [hw]; rfl)
  | spawned _ hphase _ => exact hstopped hphase (by simp) (by simp)
  | told _ hphase _ => exact hstopped hphase (by simp) (by simp)
  | taken hidle hbusy _ hpath hdump => exact .taken hidle hbusy hpath hdump
  | started _ _ hphase _ => exact hstopped hphase (by simp) (by simp)
  | finished _ _ hphase _ => exact hstopped hphase (by simp) (by simp)
  | evicted he hover hv hbusy hkilled _ hpath => exact .evicted he hover hv hbusy hkilled hpath

/-- A running slot has a path that `dump` printed when it was dispatched. -/
theorem dumped_reachable {c : Config n}
    (h : (system X nrWorkers maxMemorySize resolver).Reachable System.anyEnv c) (i : Fin n)
    (hrunning : (c.sched.workers i).running = true) :
    ∃ path, (c.sched.workers i).attrPath = some path ∧
      (X.dump (.ofStrings path)).isSome = true := by
  -- a path comes in with `dump` and stays until the slot is reset
  refine h.invariant (I := fun c => ∀ i, (c.sched.workers i).running = true → ∃ path,
    (c.sched.workers i).attrPath = some path ∧ (X.dump (.ofStrings path)).isSome = true)
    (fun i (hi : false = true) => by cases hi) ?_ i hrunning
  intro c c' e _ ih _ hstep i hi
  cases step_slotChange hstep i with
  | stopped hstopped =>
    rw [hstopped] at hi
    cases hi
  | kept hphase hpath =>
    rw [hpath]
    exact ih i (by rwa [Worker.running, ← hphase])
  | taken _ _ hpath hdump => exact ⟨_, hpath, hdump⟩
  | evicted _ _ _ hbusy _ hpath =>
    rw [hpath]
    exact ih i (Worker.running_iff.mpr (.inl hbusy))

end Scheduler

/-! ## Runs -/

namespace Process

/-- Only a process that has not ended acts. -/
theorem status_of_act {X : Externals} {p p' : Process} {a : Act} (h : p.act X a = some p') :
    p.status = none := by
  rw [act.eq_def] at h
  split at h
  all_goals first | assumption | cases h

/-- A slot that is killed now was killed by this event if it was busy before, and was so
already otherwise. -/
theorem follow_killed {X : Externals} (p : Process) {before after : Worker}
    (h : after.phase = .killed) :
    p.follow X before after = if before.phase = .busy then p.kill else p := by
  rw [follow, h]
  cases before.phase <;> rfl

end Process

namespace Joint

open Scheduler

variable {n : Nat} {X : Externals} {nrWorkers maxMemorySize : UInt64} {resolver : Bool}

/-- Reading from a pipe does not change how its process ended. -/
theorem consume_status (procs : Fin n → Process) (e : Event n) (i : Fin n) :
    (consume procs e i).status = (procs i).status := by
  cases e with
  | line idx line rss =>
    rw [consume]
    by_cases hi : i = idx
    · subst hi
      rw [Function.update_self]
    · rw [Function.update_of_ne hi]
  | _ => rfl

/-- An event of the collector is a step of the scheduler, and the processes follow it. -/
theorem step_eq_some {j j' : Joint n} {e : Event n} (h : j.step X (.collector e) = some j') :
    Scheduler.step X j.config e = some j'.config ∧
      j'.procs = fun i => (consume j.procs e i).follow X (j.config.sched.workers i)
        (j'.config.sched.workers i) := by
  rw [step] at h
  split at h
  · obtain ⟨config, hstep, rfl⟩ := Option.map_eq_some_iff.mp h
    exact ⟨hstep, rfl⟩
  · cases h

/-- The scheduler of a run with processes is in a state that it reaches alone. -/
theorem config_reachable {rely : Joint n → JointEvent n → Prop} {j : Joint n}
    (h : (system X nrWorkers maxMemorySize resolver).Reachable rely j) :
    Visits X nrWorkers maxMemorySize resolver j.config := by
  refine h.invariant (I := fun j => Visits X nrWorkers maxMemorySize resolver j.config) .init ?_
  intro j j' e _ hvisits _ hstep
  cases e with
  -- a process steps, the scheduler waits
  | act idx a =>
    change (if _ then _ else _) = _ at hstep
    split at hstep
    · obtain ⟨p, -, rfl⟩ := Option.map_eq_some_iff.mp hstep
      exact hvisits
    · cases hstep
  | collector e => exact hvisits.step trivial (step_eq_some hstep).1

/-- A killed worker died of the signal. -/
def Signaled (j : Joint n) : Prop :=
  ∀ i, (j.config.sched.workers i).phase = .killed →
    (j.procs i).status = some (.signaled sigkill)

/-- The invariant survives every step in which the victim is alive. -/
theorem signaled_step {j j' : Joint n} {e : JointEvent n} (h : j.Signaled)
    (halive : j.victimAlive e = true) (hstep : j.step X e = some j') : j'.Signaled := by
  intro i hi
  cases e with
  | act idx a =>
    change (if _ then _ else _) = _ at hstep
    split at hstep
    · obtain ⟨p, hact, rfl⟩ := Option.map_eq_some_iff.mp hstep
      -- a killed process has ended and does not act
      have hstatus := h i hi
      dsimp only
      by_cases hidx : i = idx
      · subst hidx
        rw [Process.status_of_act hact] at hstatus
        cases hstatus
      · rwa [Function.update_of_ne hidx]
    · cases hstep
  | collector e =>
    obtain ⟨hsched, hprocs⟩ := step_eq_some hstep
    rw [hprocs]
    dsimp only
    rw [Process.follow_killed _ hi]
    -- what has become killed was busy before and alive
    cases step_slotChange hsched i with
    | stopped hstopped =>
      rw [Worker.running, hi] at hstopped
      cases hstopped
    | kept hphase _ =>
      rw [hi] at hphase
      rw [if_neg (by rw [← hphase]; simp), consume_status]
      exact h i hphase.symm
    | taken _ hbusy =>
      rw [hi] at hbusy
      cases hbusy
    | @evicted own rss he hover hvictim hbusy _ _ =>
      subst he
      rw [victimAlive, decide_eq_true_eq] at halive
      have hnone := (halive.resolve_left hover) i hvictim
      rw [if_pos hbusy, Process.kill, consume_status, hnone]
      rfl

/-- At first no slot is killed. -/
theorem signaled_reachable {j : Joint n}
    (h : (system X nrWorkers maxMemorySize resolver).Reachable
      (fun j e => j.victimAlive e = true) j) : j.Signaled :=
  h.invariant (fun _ hi => by cases hi) fun _ ih halive hstep => signaled_step ih halive hstep

end Joint

/-! ## The end-of-file of a killed worker -/

namespace Scheduler

variable {n : Nat} {X : Externals}

/-- The strings that `dump` has to find valid in an error response. -/
theorem strings_errorResponse (path : AttrPath) (msg : Str) :
    ((errorResponse path msg).toJson X.toStorePaths).strings =
      [lit "attr", joinAttrPath path, lit "attrPath"] ++ path ++
        [lit "error", msg, lit "fatal"] := by
  have hfields : (errorResponse path msg).toFields X.toStorePaths =
      [(lit "attr", .string (joinAttrPath path)), (lit "attrPath", .ofStrings path),
        (lit "error", .string msg), (lit "fatal", .bool false)] := by
    rfl
  rw [Response.toJson, hfields]
  simp [Json.strings, Json.fieldStrings, Json.strings_ofStrings]

/-- An error for a path that `dump` prints can be printed too. -/
theorem dump_errorResponse (hX : X.DumpsUtf8) {path : AttrPath} {msg : Str}
    (hpath : (X.dump (.ofStrings path)).isSome = true) (hmsg : Utf8 msg) :
    (X.dump ((errorResponse path msg).toJson X.toStorePaths)).isSome = true := by
  rw [hX, Json.strings_ofStrings] at hpath
  rw [hX, strings_errorResponse]
  simp only [List.forall_mem_append, List.forall_mem_cons, List.not_mem_nil, false_imp_iff,
    implies_true, and_true]
  exact ⟨⟨⟨utf8_lit (by decide), utf8_joinAttrPath hpath, utf8_lit (by decide)⟩, hpath⟩,
    utf8_lit (by decide), hmsg, utf8_lit (by decide)⟩

/-- The message about the budget is ASCII. -/
theorem utf8_budgetMessage (budget : UInt64) : Utf8 (budgetMessage budget) :=
  ((utf8_lit (by decide)).append (utf8_decimal _)).append (utf8_lit (by decide))

/-- The end-of-file of a worker that died of SIGKILL: its job is retried alone, or
given up when it was alone, and the slot is empty. -/
theorem onEof_signaled (hX : X.DumpsUtf8) {s : Scheduler n} {idx : Fin n} {wait : Wait}
    {path : AttrPath} (hkilled : (s.workers idx).phase = .killed)
    (hproc : (s.workers idx).proc ≠ none) (hpath : (s.workers idx).attrPath = some path)
    (hdump : (X.dump (.ofStrings path)).isSome = true)
    (hwait : wait.result = some (.signaled sigkill)) :
    ∃ s', s.onEof X idx wait = .ok s' ∧ s'.workers = Function.update s.workers idx {} ∧
      ((s.mode = .parallel ∧ s'.solo = s.solo ++ [path] ∧ s'.jobs = s.jobs ∧
          s'.stdout = s.stdout) ∨
        (s.mode = .solo ∧ s'.solo = s.solo ∧
          ∃ dumped, X.dump ((errorResponse path (budgetMessage s.budget)).toJson
              X.toStorePaths) = some dumped ∧
            s'.jobs = s.jobs.insert (joinAttrPath path)
              ((errorResponse path (budgetMessage s.budget)).toJson X.toStorePaths) ∧
            s'.stdout = s.stdout ++ [dumped])) := by
  obtain ⟨proc, hproc⟩ := Option.ne_none_iff_exists'.mp hproc
  -- `throwExited` complains about an exit status only
  have hexited : throwExited (doing (s.workers idx)) wait = .ok () := by
    rw [throwExited, hwait]
    rfl
  have hrunning : (s.workers idx).running = true := Worker.running_iff.mpr (.inr hkilled)
  have hphase : (s.workers idx).phase ≠ .exiting := by
    rw [hkilled]
    simp
  -- what is left of `onEof` is the retry
  have heof : s.onEof X idx wait = (s.retryJob X path).bind fun s =>
      .ok (s.forgetKilled idx) := by
    have hlog : logKilled (s.workers idx) = .ok () := if_pos hkilled
    rw [onEof, if_neg hphase, hproc, hexited, onKilled, hlog, if_pos hrunning, hpath]
    rfl
  rw [heof, retryJob]
  -- Parallel mode queues the job for Solo mode, Solo mode answers it
  cases hmode : s.mode with
  | parallel => exact ⟨_, rfl, rfl, .inl ⟨rfl, rfl, rfl, rfl⟩⟩
  | solo =>
    obtain ⟨dumped, hdumped⟩ := Option.isSome_iff_exists.mp
      (dump_errorResponse hX hdump (utf8_budgetMessage s.budget))
    rw [emitError, hdumped]
    exact ⟨_, rfl, rfl, .inr ⟨rfl, rfl, dumped, rfl, rfl, rfl⟩⟩

/-- Any other end of the process leaves `run` with an exception. -/
theorem onEof_exited {s : Scheduler n} {idx : Fin n} {wait : Wait} {code : Nat}
    (hkilled : (s.workers idx).phase = .killed) (hwait : wait.result = some (.exited code)) :
    ∃ e, s.onEof X idx wait = .error e := by
  have hexited : ∃ e, throwExited (doing (s.workers idx)) wait = .error e := by
    rw [throwExited, hwait]
    dsimp only
    split <;> exact ⟨_, rfl⟩
  obtain ⟨e, he⟩ := hexited
  have hphase : (s.workers idx).phase ≠ .exiting := by
    rw [hkilled]
    simp
  -- the wait comes before anything else, and throws
  rw [onEof, if_neg hphase]
  split
  · exact ⟨_, rfl⟩
  · rw [he]
    exact ⟨e, rfl⟩

end Scheduler

namespace Joint

open Scheduler

variable {n : Nat} {X : Externals} {nrWorkers maxMemorySize : UInt64} {resolver : Bool}

/-- **An eviction does not abort the run**, as long as evicted workers have not
exited by themselves. In every reachable state the end-of-file of a killed worker
raises no exception; its job goes to `solo` in Parallel mode and gets one error
response in Solo mode, and the slot is empty afterwards. -/
theorem killed_eof_handled (hX : X.DumpsUtf8) {j : Joint n}
    (h : (system X nrWorkers maxMemorySize resolver).Reachable
      (fun j e => j.victimAlive e = true) j) {idx : Fin n} {wait : Wait}
    (hpass : j.config.pass = none) (hkilled : (j.config.sched.workers idx).phase = .killed)
    (hallows : j.allows (.eof idx wait) = true) :
    ∃ j' path, step X j (.collector (.eof idx wait)) = some j' ∧
      (j.config.sched.workers idx).attrPath = some path ∧
      j'.config.sched.workers = Function.update j.config.sched.workers idx {} ∧
      ((j.config.sched.mode = .parallel ∧ j'.config.sched.solo = j.config.sched.solo ++ [path] ∧
          j'.config.sched.jobs = j.config.sched.jobs ∧
          j'.config.sched.stdout = j.config.sched.stdout) ∨
        (j.config.sched.mode = .solo ∧ j'.config.sched.solo = j.config.sched.solo ∧
          ∃ json dumped, json = (errorResponse path (budgetMessage j.config.sched.budget)).toJson
              X.toStorePaths ∧ X.dump json = some dumped ∧
            j'.config.sched.jobs = j.config.sched.jobs.insert (joinAttrPath path) json ∧
            j'.config.sched.stdout = j.config.sched.stdout ++ [dumped])) := by
  have hvisits := config_reachable h
  have hvisited : Visited X (fun _ _ _ => True) nrWorkers maxMemorySize resolver
      j.config.snapshot :=
    Visited.of_reachable (hvisits.mono fun c e _ => answered_true c e)
  have hpool : j.config.sched.PoolOk := poolOk_visited hvisited
  -- a killed slot still has its process, its path and text for it
  have hproc : (j.config.sched.workers idx).proc ≠ none := by
    rw [ne_eq, ← (hpool idx).proc, hkilled]
    simp
  obtain ⟨path, hpath, hdump⟩ := dumped_reachable hvisits idx
    (Worker.running_iff.mpr (.inr hkilled))
  -- what `wait` returns is the SIGKILL of the eviction
  have hwait : wait.result = some (.signaled sigkill) := by
    rw [allows, decide_eq_true_eq] at hallows
    rw [hallows.2.2]
    exact signaled_reachable h idx hkilled
  -- so none of the exceptions of `onEof` is thrown
  obtain ⟨s', heof, hworkers, hjob⟩ := onEof_signaled hX hkilled hproc hpath hdump hwait
  have hsched : Scheduler.step X j.config (.eof idx wait) = some ⟨s', none⟩ := by
    obtain ⟨⟨s, pass⟩, procs⟩ := j
    subst hpass
    rw [Scheduler.step, if_pos (Option.isSome_iff_ne_none.mpr hproc), heof]
    rfl
  obtain ⟨j', hstep, hconfig⟩ : ∃ j', step X j (.collector (.eof idx wait)) = some j' ∧
      j'.config = ⟨s', none⟩ := by
    rw [step, if_pos hallows, hsched]
    exact ⟨_, rfl, rfl⟩
  refine ⟨j', path, hstep, hpath, ?_⟩
  rw [hconfig]
  refine ⟨hworkers, ?_⟩
  rcases hjob with hparallel | ⟨hsolo, hsame, dumped, hdumped, hjobs, hstdout⟩
  · exact .inl hparallel
  · exact .inr ⟨hsolo, hsame, _, dumped, rfl, hdumped, hjobs, hstdout⟩

/-! ## Two runs -/

/-- The lines that the two runs read. -/
def rootExternals : Externals := Externals.plain [rootJson, .ofStrings []]

/-- The only worker evaluates the root. -/
def busyRun : List (JointEvent 1) :=
  (Event.calmPass 1).map JointEvent.collector ++
    [JointEvent.act 0 .offer, .collector (.line 0 msgNext 50)] ++
    (Event.calmPass 1).map JointEvent.collector ++ [JointEvent.act 0 .read]

/-- It has grown and is evicted. -/
def evictedRun : List (JointEvent 1) := busyRun ++ [JointEvent.collector (.sample 20 ![120])]

/-- Every step of it is possible, and the victim is alive. -/
theorem evictedRun_isSome :
    ((system rootExternals 1 100 false).run victimAlive (system rootExternals 1 100 false).init
      evictedRun).isSome = true := by
  decide +kernel

/-- The worker that was evicted while busy is buried without an exception. -/
theorem killed_eof_handled_evicted :
    let j := (system rootExternals 1 100 false).after victimAlive evictedRun evictedRun_isSome
    ∃ j', step rootExternals j (.collector (Event.killedEof 0)) = some j' := by
  intro j
  have hkilled : (j.config.sched.workers 0).phase = .killed := by decide +kernel
  have hallows : j.allows (.eof 0 ⟨.status (.signaled sigkill), none⟩) = true := by decide +kernel
  obtain ⟨j', -, hstep, -⟩ := killed_eof_handled (JsonText.plain_dumpsUtf8 _)
    (System.reachable_after (fun _ _ h => h) evictedRun evictedRun_isSome)
    (by decide +kernel) hkilled hallows
  exact ⟨j', hstep⟩

/-- It answers, wants to restart and exits, all before the collector reads on. The
collector is over its budget and evicts the only busy worker, the exited one. -/
def exitedRun : List (JointEvent 1) :=
  busyRun ++ [JointEvent.act 0 (.respond rootResponse true), .act 0 .restart, .act 0 .exit,
    .collector (.sample 120 ![0]), .collector (.line 0 (rootJson.plainDump.getD []) 0),
    .collector (.line 0 msgRestart 0)]

/-- Every step of the second run is possible, too. -/
theorem exitedRun_isSome :
    ((system rootExternals 1 100 false).run System.anyCheck
      (system rootExternals 1 100 false).init exitedRun).isSome = true := by
  decide +kernel

/-- The end-of-file of the killed worker aborts the run. -/
theorem exitedVictim_throws :
    let j := (system rootExternals 1 100 false).after System.anyCheck exitedRun exitedRun_isSome
    (j.config.sched.workers 0).phase = .killed ∧
      j.allows (.eof 0 ⟨.status (.exited 0), none⟩) = true ∧
      ∃ e, j.config.sched.onEof rootExternals 0 ⟨.status (.exited 0), none⟩ = .error e := by
  intro j
  have hkilled : (j.config.sched.workers 0).phase = .killed := by decide +kernel
  exact ⟨hkilled, by decide +kernel, onEof_exited hkilled rfl⟩

end Joint

end NixEvalJobs
