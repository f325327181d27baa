import NixEvalJobs.Scheduler.Pool
import NixEvalJobs.Worker.Process

/-!
# Worker — the protocol

The scheduler together with its worker processes. What a line means depends on the
phase of the slot on one side and on the position in `worker` on the other, and
nothing but the order of lines keeps them in step.

* `Agrees` — the joint invariant of a slot and its process.
* `protocol_agreement` — no line is unexpected, on either side.
-/

namespace NixEvalJobs

namespace Protocol

/-! ## The joint system -/

/-- What the collector did to the process of a slot, by what became of the slot. -/
def Process.follow (X : Externals) (config : Str) (p : Process) (before after : Worker) : Process :=
  match before.phase, after.phase with
  | .none, .starting => spawned config
  | .idle, .exiting => p.receive msgExit
  | .idle, .busy => p.receive (msgDo ++ (X.dump (.ofStrings (after.attrPath.getD []))).getD [])
  | _, _ => p

/-- The scheduler, and a process for each slot. -/
structure State (n : Nat) where
  config : Config n
  procs : Fin n → Process

/-- A step of a process, a SIGKILL from anyone (the one of an eviction included), or
a step of the scheduler. -/
inductive Event (n : Nat) where
  | act (idx : Fin n) (a : Act)
  | kill (idx : Fin n)
  | collector (e : NixEvalJobs.Event n)

variable {n : Nat} (X : Externals) (config : Str)

/-- The collector reads complete lines, and the end of a pipe after them, when its
process has ended. -/
def allows (j : State n) : NixEvalJobs.Event n → Bool
  | .line idx line _ => (popLine newline (j.procs idx).output).map Prod.fst = some line
  | .eof idx wait =>
    popLine newline (j.procs idx).output = none ∧ (j.procs idx).status ≠ none ∧
      wait.result = (j.procs idx).status
  | _ => true

/-- The line of an event is taken off its pipe. -/
def consume (procs : Fin n → Process) : NixEvalJobs.Event n → Fin n → Process
  | .line idx _ _ => Function.update procs idx (procs idx).popped
  | _ => procs

/-- One step of one of the parties. -/
def step (j : State n) : Event n → Option (State n)
  | .act idx a =>
    if (j.config.sched.workers idx).proc.isSome then
      ((j.procs idx).act X a).map fun p => { j with procs := Function.update j.procs idx p }
    else none
  | .kill idx => some { j with procs := Function.update j.procs idx (j.procs idx).kill }
  | .collector e =>
    if allows j e then
      (Scheduler.step X j.config e).map fun c =>
        { config := c
          procs := fun i => (consume j.procs e i).follow X config (j.config.sched.workers i)
            (c.sched.workers i) }
    else none

/-- The parties at the start; a process counts from when its slot spawns it. -/
def system (nrWorkers maxMemorySize : UInt64) (cacheStatusResolver : Bool) :
    System (State n) (Event n) where
  init :=
    ⟨(Scheduler.system X nrWorkers maxMemorySize cacheStatusResolver).init,
      fun _ => Process.spawned config⟩
  step := step X config

/-! ## Slots and processes -/

/-- **The joint invariant of a slot and its process.** -/
def Agrees (X : Externals) (config : Str) (w : Worker) (p : Process) : Prop :=
  match w.phase with
  | .none => True
  | .starting => Booting config p ∨ Announcing [] p
  | .idle => Ready p
  | .busy => ∃ path, w.attrPath = some path ∧ Serving X path p
  | .killed | .exiting => Harmless X p

variable {X} {config}

/-- **A process keeps in step with its slot.** -/
theorem Agrees.acts {w : Worker} {p p' : Process} (hX : Framing X config)
    (h : Agrees X config w p) (hstep : Acts X p p') : Agrees X config w p' := by
  unfold Agrees at h ⊢
  -- in each phase the process stays in its own part of the loop
  split at h
  · trivial
  · rcases h with h | h
    · exact h.acts hX hstep
    · exact .inr (h.acts hstep)
  · exact h.acts hstep
  · obtain ⟨path, hpath, h⟩ := h
    exact ⟨path, hpath, h.acts hX hstep⟩
  · exact h.acts hX hstep
  · exact h.acts hX hstep

/-- The process of a slot in use reads no command it does not know. -/
theorem Agrees.loc_ne_failed {w : Worker} {p : Process} (h : Agrees X config w p)
    (hphase : w.phase ≠ .none) : p.loc ≠ .failed := by
  unfold Agrees at h
  split at h
  · next hnone => exact absurd hnone hphase
  · rcases h with h | h
    · rw [h.loc]
      simp
    · exact h.loc_ne.2
  · rw [h.loc]
    simp
  · obtain ⟨path, -, h⟩ := h
    exact h.harmless.loc
  · exact h.loc
  · exact h.loc

/-! ### Steps of the collector -/

variable {n : Nat}

/-- A line is taken off the pipe of its own process. -/
@[simp] theorem consume_line (procs : Fin n → Process) (i : Fin n) (line : Str) (rss : UInt64) :
    consume procs (.line i line rss) i = (procs i).popped :=
  Function.update_self ..

/-- A line is taken off the pipe it was read from. -/
theorem consume_cases (procs : Fin n → Process) (e : NixEvalJobs.Event n) (i : Fin n) :
    consume procs e i = procs i ∨
      ∃ line rss, e = .line i line rss ∧ consume procs e i = (procs i).popped := by
  match e with
  | .line idx line rss =>
    by_cases hi : i = idx
    · subst hi
      exact .inr ⟨line, rss, rfl, consume_line ..⟩
    · exact .inl (Function.update_of_ne hi ..)
  | .beginDispatch | .slot _ | .endDispatch | .sample _ _ | .eof _ _ => exact .inl rfl

/-- What is read is what has been written. -/
theorem allows_line {j : State n} {idx : Fin n} {line : Str} {rss : UInt64}
    (h : allows j (.line idx line rss) = true) :
    (popLine newline (j.procs idx).output).map Prod.fst = some line :=
  of_decide_eq_true h

/-- Nothing is taken from a process that has said nothing. -/
theorem consume_quiet {j : State n} {e : NixEvalJobs.Event n} {i : Fin n}
    (h : allows j e = true) (houtput : (j.procs i).output = []) :
    consume j.procs e i = j.procs i := by
  rcases consume_cases j.procs e i with hc | ⟨line, rss, rfl, -⟩
  · exact hc
  · exact absurd (allows_line h) (popLine_quiet houtput)

/-- The collector tells a process something only where the slot changes its phase. -/
theorem follow_same {p : Process} {before after : Worker} (h : after.phase = before.phase) :
    p.follow X config before after = p := by
  unfold Process.follow
  rw [h]
  cases before.phase <;> rfl

/-- An idle process is told to end. -/
theorem Ready.told {p : Process} (h : Ready p) : Harmless X (p.receive msgExit) := by
  have hinput : (p.receive msgExit).input = frame newline msgExit := by
    change p.input ++ _ = _
    rw [h.input]
    rfl
  refine ⟨?_, ?_, .inr (.inl hinput)⟩
  · change p.loc ≠ _
    rw [h.loc]
    simp
  · change p.loc ≠ _
    rw [h.loc]
    simp

/-- An idle process is sent a path. -/
theorem Ready.sent {p : Process} {path : AttrPath} {text : Str} (h : Ready p)
    (hdump : X.dump (.ofStrings path) = some text) :
    Serving X path (p.receive (msgDo ++ text)) := by
  refine .commanded hdump h.loc ?_ h.output
  change p.input ++ _ = _
  rw [h.input]
  rfl

/-- **A slot keeps in step with its process.** -/
theorem agrees_slotStep {j : State n} {e : NixEvalJobs.Event n} {i : Fin n} {w : Worker}
    (hX : Framing X config) (hallows : allows j e = true)
    (h : Agrees X config (j.config.sched.workers i) (j.procs i))
    (hstep : Scheduler.SlotStep X j.config.sched e i w) :
    Agrees X config w
      ((consume j.procs e i).follow X config (j.config.sched.workers i) w) := by
  -- each change of phase goes with the line that the collector read or sent
  match hstep with
  | .reset hw =>
    subst hw
    trivial
  -- the phase stays; a line is read only from a worker that is not listened to any more
  | .kept hphase _ hpath hline =>
    rw [follow_same hphase]
    rcases consume_cases j.procs e i with hc | ⟨line, rss, rfl, hc⟩ <;> rw [hc]
    · unfold Agrees at h ⊢
      rwa [hphase, hpath]
    · unfold Agrees at h ⊢
      rw [hphase]
      rcases hline line rss rfl with hdead | hdead <;> rw [hdead] at h ⊢ <;> exact h.popped
  | .spawned hnone hstarting _ =>
    unfold Agrees Process.follow
    rw [hnone, hstarting]
    exact .inl ⟨rfl, rfl, rfl⟩
  -- an idle worker has nothing in its pipe
  | .told hidle hexiting _ =>
    unfold Agrees at h ⊢
    rw [hidle] at h
    rw [consume_quiet hallows h.output, hexiting]
    unfold Process.follow
    rw [hidle, hexiting]
    exact h.told
  | @Scheduler.SlotStep.taken _ _ _ _ _ _ path hidle hbusy _ hpath hdump =>
    obtain ⟨text, hdump⟩ := Option.isSome_iff_exists.mp hdump
    unfold Agrees at h ⊢
    rw [hidle] at h
    rw [consume_quiet hallows h.output, hbusy]
    refine ⟨path, hpath, ?_⟩
    unfold Process.follow
    rw [hidle, hbusy, hpath, Option.getD_some, hdump]
    exact h.sent hdump
  -- of the two lines a starting worker can write, this was `next`
  | .started he hstarting hidle _ =>
    subst he
    have hpop := allows_line hallows
    unfold Agrees at h ⊢
    rw [hstarting] at h
    rw [hidle]
    unfold Process.follow
    rw [hstarting, hidle, consume_line]
    rcases starting_line h hpop with ⟨-, hready⟩ | hrestart
    · exact hready
    · exact absurd hrestart (by decide)
  -- the line was the answer
  | .finished he hbusy hstarting _ =>
    subst he
    have hpop := allows_line hallows
    unfold Agrees at h ⊢
    rw [hbusy] at h
    obtain ⟨path, -, hserving⟩ := h
    rw [hstarting]
    unfold Process.follow
    rw [hbusy, hstarting, consume_line]
    exact .inr (hserving.line hX hpop).2
  -- whatever it was about to say is dropped
  | .evicted he _ _ hbusy hkilled _ _ =>
    subst he
    unfold Agrees at h ⊢
    rw [hbusy] at h
    obtain ⟨path, -, hserving⟩ := h
    rw [hkilled]
    unfold Process.follow
    rw [hbusy, hkilled]
    exact hserving.harmless

/-- Nothing that the collector sends is read as it is sent. -/
theorem follow_loc_ne_failed {p : Process} (before after : Worker) (h : p.loc ≠ .failed) :
    (p.follow X config before after).loc ≠ .failed := by
  unfold Process.follow
  split
  · intro hloc
    cases hloc
  · exact h
  · exact h
  · exact h

/-- Reading from a pipe does not move its process. -/
theorem consume_loc (procs : Fin n → Process) (e : NixEvalJobs.Event n) (i : Fin n) :
    (consume procs e i).loc = (procs i).loc := by
  rcases consume_cases procs e i with hc | ⟨line, rss, -, hc⟩ <;> rw [hc]
  rfl

/-! ## Runs -/

variable {nrWorkers maxMemorySize : UInt64} {resolver : Bool}

/-- What holds of every slot and its process in a run. -/
structure InStep (X : Externals) (config : Str) (j : State n) : Prop where
  agrees : ∀ i, Agrees X config (j.config.sched.workers i) (j.procs i)
  known : ∀ i, (j.procs i).loc ≠ .failed

/-- The scheduler of the joint system is the scheduler. -/
theorem reachable_sched {j : State n}
    (h : (system X config nrWorkers maxMemorySize resolver).Reachable System.anyEnv j) :
    (Scheduler.system X nrWorkers maxMemorySize resolver).Reachable System.anyEnv j.config := by
  refine h.invariant (I := fun j =>
    (Scheduler.system X nrWorkers maxMemorySize resolver).Reachable System.anyEnv j.config)
    .init ?_
  intro j j' e _ hj _ hstep
  match e with
  | .act idx a =>
    simp only [system, step] at hstep
    split at hstep
    · obtain ⟨p, -, rfl⟩ := Option.map_eq_some_iff.mp hstep
      exact hj
    · cases hstep
  | .kill idx =>
    obtain rfl := Option.some.inj hstep
    exact hj
  | .collector e =>
    simp only [system, step] at hstep
    split at hstep
    · obtain ⟨c, hc, rfl⟩ := Option.map_eq_some_iff.mp hstep
      exact hj.step trivial hc
    · cases hstep

/-- So the pool is as it should be. -/
theorem poolOk_reachable {j : State n}
    (h : (system X config nrWorkers maxMemorySize resolver).Reachable System.anyEnv j) :
    j.config.sched.PoolOk := by
  have hvisited : Scheduler.Visited X (fun _ _ _ => True) nrWorkers maxMemorySize resolver
      j.config.snapshot :=
    .of_reachable ((reachable_sched h).mono fun c e _ => Scheduler.answered_true c e)
  exact Scheduler.poolOk_visited hvisited

/-- One process has taken a step. -/
theorem InStep.update {j : State n} {idx : Fin n} {p : Process} (h : InStep X config j)
    (hp : Agrees X config (j.config.sched.workers idx) p) (hknown : p.loc ≠ .failed) :
    InStep X config { j with procs := Function.update j.procs idx p } := by
  refine ⟨fun i => ?_, fun i => ?_⟩ <;> dsimp only <;> by_cases hi : i = idx
  · -- the process that acted, and after it the others
    subst hi
    rwa [Function.update_self]
  · rw [Function.update_of_ne hi]
    exact h.agrees i
  · subst hi
    rwa [Function.update_self]
  · rw [Function.update_of_ne hi]
    exact h.known i

/-- The invariant survives every step. -/
theorem InStep.step {j j' : State n} {e : Event n} (hX : Framing X config)
    (hpool : j.config.sched.PoolOk) (h : InStep X config j)
    (hstep : Protocol.step X config j e = some j') : InStep X config j' := by
  match e with
  | .act idx a =>
    simp only [Protocol.step] at hstep
    split at hstep
    · next hproc =>
      -- the process acts, and its slot is in use
      obtain ⟨p, hact, rfl⟩ := Option.map_eq_some_iff.mp hstep
      have hagrees := (h.agrees idx).acts hX (act_acts hact)
      refine h.update hagrees (hagrees.loc_ne_failed fun hnone => ?_)
      rw [(hpool idx).proc.mp hnone] at hproc
      cases hproc
    · cases hstep
  | .kill idx =>
    obtain rfl := Option.some.inj hstep
    exact h.update ((h.agrees idx).acts hX (kill_acts _)) (h.known idx)
  | .collector e =>
    simp only [Protocol.step] at hstep
    split at hstep
    · next hallows =>
      obtain ⟨c, hc, rfl⟩ := Option.map_eq_some_iff.mp hstep
      refine ⟨fun i => ?_, fun i => ?_⟩
      · exact agrees_slotStep hX hallows (h.agrees i) (Scheduler.step_slotStep hc i)
      · refine follow_loc_ne_failed _ _ ?_
        rw [consume_loc]
        exact h.known i
    · cases hstep

/-- At first every slot is empty. -/
theorem inStep_reachable {j : State n} (hX : Framing X config)
    (h : (system X config nrWorkers maxMemorySize resolver).Reachable System.anyEnv j) :
    InStep X config j := by
  refine h.invariant ⟨fun _ => trivial, fun _ hloc => by cases hloc⟩ ?_
  intro j j' e hj hinStep _ hstep
  exact hinStep.step hX (poolOk_reachable hj) hstep

/-- `onLine` has a branch for the line, and it answers for the path of the slot when
it goes to `onResponse`. -/
structure Expected (X : Externals) (w : Worker) (line : Str) : Prop where
  none : w.phase ≠ .none
  idle : w.phase ≠ .idle
  starting : w.phase = .starting → line = msgNext ∨ line = msgRestart
  busy : w.phase = .busy → ∃ path, w.attrPath = some path ∧ IsResponse X path line

/-- Only `onResponse` throws on an expected line. -/
theorem Expected.onLine {s : Scheduler n} {idx : Fin n} {line : Str} (rss : UInt64)
    (h : Expected X (s.workers idx) line) :
    (∃ s', s.onLine X idx line rss = .ok s') ∨
      ((s.workers idx).phase = .busy ∧
        s.onLine X idx line rss = s.onResponse X idx line rss) := by
  unfold Scheduler.onLine
  split
  · next hstarting =>
    refine .inl ?_
    rcases h.starting hstarting with rfl | rfl
    · exact ⟨_, rfl⟩
    · exact ⟨_, rfl⟩
  · next hbusy => exact .inr ⟨hbusy, rfl⟩
  · exact .inl ⟨s, rfl⟩
  · exact .inl ⟨s, rfl⟩
  · next hnone => exact absurd hnone h.none
  · next hidle => exact absurd hidle h.idle

/-- **Workers and collector agree on the protocol.** Whatever the order of the steps of
fault-free workers, kills and the scheduler: a line that the collector reads is one it
expects in the phase of the slot, so that `onLine` throws at most from `onResponse`; the
lines that get there answer for the path of the slot; and no worker reads a command it
does not know. -/
theorem protocol_agreement {X : Externals} {config : Str} (hX : Framing X config) {n : Nat}
    {nrWorkers maxMemorySize : UInt64} {resolver : Bool} {j : State n}
    (h : (system X config nrWorkers maxMemorySize resolver).Reachable System.anyEnv j) :
    (∀ idx line rss, (j.config.sched.workers idx).proc.isSome = true →
      allows j (.line idx line rss) = true →
      Expected X (j.config.sched.workers idx) line ∧
        ((∃ s, j.config.sched.onLine X idx line rss = .ok s) ∨
          ((j.config.sched.workers idx).phase = .busy ∧
            j.config.sched.onLine X idx line rss =
              j.config.sched.onResponse X idx line rss))) ∧
    ∀ idx, (j.procs idx).loc ≠ .failed := by
  have hinStep := inStep_reachable hX h
  refine ⟨fun idx line rss hproc hallows => ?_, hinStep.known⟩
  have hpool := poolOk_reachable h idx
  have hpop := allows_line hallows
  have hagrees := hinStep.agrees idx
  -- a slot that has no process, or is idle, is not read; the others expect the line
  have hexpected : Expected X (j.config.sched.workers idx) line := by
    refine ⟨fun hnone => ?_, fun hidle => ?_, fun hstarting => ?_, fun hbusy => ?_⟩
    · rw [hpool.proc.mp hnone] at hproc
      cases hproc
    · unfold Agrees at hagrees
      rw [hidle] at hagrees
      exact popLine_quiet hagrees.output hpop
    · unfold Agrees at hagrees
      rw [hstarting] at hagrees
      exact (starting_line hagrees hpop).imp_left And.left
    · unfold Agrees at hagrees
      rw [hbusy] at hagrees
      obtain ⟨path, hpath, hserving⟩ := hagrees
      exact ⟨path, hpath, (hserving.line hX hpop).1⟩
  exact ⟨hexpected, hexpected.onLine rss⟩

/-! ### A run with a kill in the middle of a line -/

/-- The empty path and the response for the root are printed as nlohmann prints them. -/
def rootLibraries : Externals where
  toStorePaths := StorePaths.plain
  parse line :=
    if line = lit "[]" then some (.array [])
    else if rootJson.plainDump = some line then some rootJson else none
  dump
    | .array [] => some (lit "[]")
    | .object fields =>
      if (Json.object fields).plainDump = rootJson.plainDump then rootJson.plainDump else none
    | _ => none

/-- An empty configuration. -/
def rootConfig : Str := lit "\x7b\x7d"

/-- These libraries print without newlines and parse what they print. -/
theorem rootLibraries_framing : Framing rootLibraries rootConfig where
  config := by decide
  dump json text h := by
    have hroot : ∀ text, rootJson.plainDump = some text → newline ∉ text := by
      intro text htext
      have hnone : rootJson.plainDump.all (fun text => newline ∉ text) = true := by decide +kernel
      rw [htext] at hnone
      exact of_decide_eq_true hnone
    simp only [rootLibraries] at h
    split at h
    · obtain rfl := Option.some.inj h
      decide
    · split at h
      · exact hroot text h
      · cases h
    · cases h
  parse path text h := by
    match path with
    | [] =>
      obtain rfl := Option.some.inj h
      rfl
    | attr :: path => cases h

/-- The worker answers for the root and is killed while it writes the next line. -/
def killedWritingRun : List (Event 1) :=
  let writes (k : Nat) : List (Event 1) := List.replicate k (.act 0 .write)
  (Event.calmPass 1).map Event.collector ++ [Event.act 0 .configure] ++ writes 5 ++
    [Event.collector (.line 0 msgNext 300)] ++ (Event.calmPass 1).map Event.collector ++
    [Event.act 0 .read, .act 0 (.respond rootResponse false)] ++
    writes ((rootJson.plainDump.getD []).length + 3) ++ [Event.kill 0]

/-- Every step of it is possible. -/
theorem killedWritingRun_isSome :
    ((system rootLibraries rootConfig 1 4096 false).run System.anyCheck
      (system rootLibraries rootConfig 1 4096 false).init killedWritingRun).isSome = true := by
  decide +kernel

/-- The complete line is expected, the truncated one is never read. -/
theorem protocol_agreement_killedWritingRun :
    let j := (system rootLibraries rootConfig 1 4096 false).after System.anyCheck
      killedWritingRun killedWritingRun_isSome
    (j.procs 0).loc = .writing (lit "xt\n") .read ∧
      Expected rootLibraries (j.config.sched.workers 0) (rootJson.plainDump.getD []) ∧
      (j.procs 0).loc ≠ .failed := by
  intro j
  have hj := System.reachable_after (fun _ _ _ => trivial) killedWritingRun
    killedWritingRun_isSome
  have hagreement := protocol_agreement rootLibraries_framing hj
  refine ⟨by decide +kernel, ?_, hagreement.2 0⟩
  exact (hagreement.1 0 (rootJson.plainDump.getD []) 300 (by decide +kernel)
    (by decide +kernel)).1

end Protocol

end NixEvalJobs
