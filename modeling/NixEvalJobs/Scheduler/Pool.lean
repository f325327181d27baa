import NixEvalJobs.Scheduler.Moves

/-!
# Scheduler — the pool of workers

What phases say about slots: a slot has a process unless its phase is `None`,
and the running ones are those that have a path to evaluate. Nothing else in the
state matters for that.

* `PhasesConsistent` — the invariant, and `phasesConsistent_visited`.
* `PoolOk` — the part of it that most proofs need.
* `trace_move` — what a move adds to the history.
* `step_slotStep` — everything that can become of a slot in one event.
-/

namespace NixEvalJobs

/-- Phase, process and path of a slot agree: only an empty slot has no process, and the
running ones are those with a path. -/
structure Worker.PhasesConsistent (w : Worker) : Prop where
  proc : w.proc = none ↔ w.phase = .none
  attrPath : (∃ path, w.attrPath = some path) ↔ w.phase = .busy ∨ w.phase = .killed

/-- A slot after `resetWorker` is consistent: no process, no path, phase `None`. -/
theorem Worker.phasesConsistent_default : ({} : Worker).PhasesConsistent := by
  constructor <;> simp

/-- A slot that keeps its process, in another phase. -/
theorem Worker.PhasesConsistent.of_phase {w w' : Worker} (h : w.PhasesConsistent)
    (hproc : w'.proc = w.proc) (hnone : w'.phase ≠ .none) (hlive : w.phase ≠ .none)
    (hpath : (∃ path, w'.attrPath = some path) ↔ w'.phase = .busy ∨ w'.phase = .killed) :
    w'.PhasesConsistent := by
  refine ⟨?_, hpath⟩
  rw [hproc]
  exact iff_of_false (fun hc => hlive (h.proc.mp hc)) hnone

/-- The process and the path a slot has to have in its phase. -/
structure Worker.Ok (w : Worker) : Prop where
  proc : w.phase = .none ↔ w.proc = none
  path : w.running = true → ∃ path, w.attrPath = some path

/-- The full invariant gives the part. -/
theorem Worker.PhasesConsistent.ok {w : Worker} (h : w.PhasesConsistent) : w.Ok :=
  ⟨h.proc.symm, fun hrunning => h.attrPath.mpr (running_iff.mp hrunning)⟩

/-- A running worker has a process, be it one that was killed. -/
theorem Worker.Ok.isSome_of_running {w : Worker} (h : w.Ok) (hrunning : w.running = true) :
    w.proc.isSome = true := by
  rw [Option.isSome_iff_ne_none]
  intro hnone
  have hphase := h.proc.mpr hnone
  simp [running, hphase] at hrunning

namespace Scheduler

variable {n : Nat} {X : Externals} {ok : AttrPath → Response → Json → Prop}
  {nrWorkers maxMemorySize : UInt64} {resolver : Bool}

/-- Every slot of the pool is consistent. -/
def PhasesConsistent (s : Scheduler n) : Prop := ∀ i, (s.workers i).PhasesConsistent

/-- Every slot has the process and the path its phase needs. -/
def PoolOk (s : Scheduler n) : Prop := ∀ i, (s.workers i).Ok

/-- Assignment of a consistent worker, the one form in which moves change slots. -/
theorem PhasesConsistent.setWorker {s : Scheduler n} (h : s.PhasesConsistent) (i : Fin n)
    {w : Worker} (hw : w.PhasesConsistent) : (s.setWorker i w).PhasesConsistent := by
  intro j
  rw [setWorker_workers]
  by_cases hj : j = i
  · subst hj
    rwa [Function.update_self]
  · rw [Function.update_of_ne hj]
    exact h j

/-- An idle slot that is handed a job. -/
theorem PhasesConsistent.handOut {s : Scheduler n} (h : s.PhasesConsistent) {i : Fin n}
    (hidle : (s.workers i).phase = .idle) (path : AttrPath) (source : Source) :
    ((s.startJob i).handOut i path source).PhasesConsistent := by
  have hstart : (s.startJob i).PhasesConsistent :=
    h.setWorker i ⟨(h i).proc, (h i).attrPath⟩
  -- only the phase and the path change, both to those of a running slot
  refine PhasesConsistent.setWorker hstart i ((h i).of_phase ?_ ?_ ?_ ?_)
  · simp [startJob]
  · simp
  · simp [hidle]
  · simp

/-- **Each move keeps the slots consistent**: it resets a slot, or changes its phase
together with what belongs to it. -/
theorem phasesConsistent_move {a b : Snapshot n} (h : a.sched.PhasesConsistent)
    (hm : Move X ok a b) : b.sched.PhasesConsistent := by
  cases hm with
  | enterSolo => exact fun _ => Worker.phasesConsistent_default
  -- all workers are reset
  | beginPass | endPass => exact h
  | @sendExit s k i hidle _ =>
    -- neither an idle nor an exiting slot runs
    refine h.setWorker i ((h i).of_phase rfl (by simp) (by simp [hidle]) ?_)
    simpa [hidle] using (h i).attrPath
  | @takeSolo s k i path hidle _ _ _ =>
    exact PhasesConsistent.handOut (s := { s with solo := s.solo.dropLast }) h hidle path .solo
  | @takeTodo s k i path own hidle _ _ _ _ =>
    exact PhasesConsistent.handOut (s := { s with todo := s.todo.erase path }) h hidle path _
  | @spawn s k i proc rss hnone _ =>
    -- the slot gets its process and leaves `None` in one go
    refine PhasesConsistent.setWorker h i ⟨by simp, ?_⟩
    simpa [hnone] using (h i).attrPath
  | @started s i hstarting =>
    refine PhasesConsistent.setWorker h i ((h i).of_phase rfl (by simp) (by simp [hstarting]) ?_)
    simpa [hstarting] using (h i).attrPath
  | restarted | exited | lost =>
    exact PhasesConsistent.setWorker h _ Worker.phasesConsistent_default
  | @requeue s _ i =>
    exact PhasesConsistent.setWorker (s := s) h i Worker.phasesConsistent_default
  | @giveUp s _ i =>
    exact PhasesConsistent.setWorker (s := s) h i Worker.phasesConsistent_default
  | @finish s m i response json line rss hbusy _ haccept =>
    -- the response is recorded before the slot changes
    have hworkers : m.workers = s.workers := (acceptResponse_frame haccept).1
    have hm : m.PhasesConsistent := fun j => hworkers ▸ h j
    have hphase : (m.workers i).phase = .busy := hworkers ▸ hbusy
    refine PhasesConsistent.setWorker (s := m) hm i
      ((hm i).of_phase rfl (by simp) (by simp [hphase]) ?_)
    simp
  | @sample s rss => exact fun i => ⟨(h i).proc, (h i).attrPath⟩
  -- sampling writes the memory readings only
  | @evict s i hbusy =>
    refine PhasesConsistent.setWorker h i ((h i).of_phase rfl (by simp) (by simp [hbusy]) ?_)
    simpa [hbusy] using (h i).attrPath

/-- So they are consistent whenever the program looks at them. -/
theorem phasesConsistent_visited {a : Snapshot n}
    (h : Visited X ok nrWorkers maxMemorySize resolver a) : a.sched.PhasesConsistent :=
  h.invariant (fun _ => Worker.phasesConsistent_default) fun _ ha hm => phasesConsistent_move ha hm

/-- What most proofs take from it. -/
theorem poolOk_visited {a : Snapshot n}
    (h : Visited X ok nrWorkers maxMemorySize resolver a) : a.sched.PoolOk :=
  fun i => (phasesConsistent_visited h i).ok

/-- What a job does to the slot that gets it. -/
theorem handOut_startJob_workers (s : Scheduler n) (i : Fin n) (path : AttrPath)
    (source : Source) :
    ((s.startJob i).handOut i path source).workers = Function.update s.workers i
      { s.workers i with
        startRss := (s.workers i).rss, attrPath := some path, phase := .busy } := by
  simp [startJob, handOut]

/-- The same for a job that `takeJob` chose, wherever it came from. -/
theorem takeJob_handOut_workers {s m : Scheduler n} {v : Fin n} {own : UInt64} {path : AttrPath}
    {source : Source} (h : s.takeJob v own = .ok (some (path, source), m)) :
    (m.handOut v path source).workers = Function.update s.workers v
      { s.workers v with
        startRss := (s.workers v).rss, attrPath := some path, phase := .busy } := by
  -- `takeJob` itself does not touch the slots
  rcases takeJob_cases h with ⟨hnone, -⟩ | ⟨p, hjob, -, -, -, rfl⟩ | ⟨p, hjob, -, -, -, -, rfl⟩
  · cases hnone
  · exact handOut_startJob_workers { s with solo := s.solo.dropLast } v path source
  · exact handOut_startJob_workers { s with todo := s.todo.erase p } v path source

/-- The slot holds the path it was handed. -/
theorem handOut_holds (s : Scheduler n) (i : Fin n) (path : AttrPath) (source : Source) :
    (((s.startJob i).handOut i path source).workers i).holds path = true := by
  rw [handOut_startJob_workers, Function.update_self]
  simp [Worker.holds, Worker.running]

/-- The phases in which no job is in flight. -/
theorem running_of_phase {w : Worker} {phase : Phase} (h : w.phase = phase)
    (hbusy : phase ≠ .busy) (hkilled : phase ≠ .killed) : w.running = false := by
  simp [Worker.running, h, hbusy, hkilled]

/-- A move records at most one effect. A job is handed out in the current mode to
a slot that then holds it, and comes from `solo` only in Solo mode. -/
theorem trace_move {a b : Snapshot n} (hm : Move X ok a b) :
    b.sched.trace = a.sched.trace ∨ ∃ e, b.sched.trace = e :: a.sched.trace ∧
      ∀ i path source mode, e = .handedOut i path source mode →
        mode = a.sched.mode ∧ (b.sched.workers i).holds path = true ∧
          (source = .solo → a.sched.mode = .solo) := by
  cases hm with
  -- these moves leave no trace
  | beginPass | endPass | started | restarted | exited | lost | sample => exact .inl rfl
  -- only these two hand out a job
  | takeSolo _ _ hmode =>
    refine .inr ⟨_, rfl, fun j path source mode he => ?_⟩
    cases he
    exact ⟨rfl, handOut_holds _ _ _ _, fun _ => hmode⟩
  | takeTodo =>
    refine .inr ⟨_, rfl, fun j path source mode he => ?_⟩
    cases he
    exact ⟨rfl, handOut_holds _ _ _ _, by simp⟩
  | finish _ _ haccept =>
    refine .inr ⟨_, congrArg (_ :: ·) (acceptResponse_frame haccept).2.1, fun _ _ _ _ he => ?_⟩
    cases he
  | enterSolo | sendExit | spawn | requeue | giveUp | evict =>
    refine .inr ⟨_, rfl, fun _ _ _ _ he => ?_⟩
    cases he

/-! ## What an event does to a slot -/

/-- What becomes of a slot, as far as its phase, its process and its path go. -/
inductive SlotStep (X : Externals) (s : Scheduler n) (e : Event n) (i : Fin n) (w : Worker) :
    Prop where
  /-- Nothing of it changes; a line read in these phases is ignored. -/
  | kept : w.phase = (s.workers i).phase → w.proc = (s.workers i).proc →
      w.attrPath = (s.workers i).attrPath →
      (∀ line rss, e = .line i line rss →
        (s.workers i).phase = .killed ∨ (s.workers i).phase = .exiting) →
      SlotStep X s e i w
  /-- `resetWorker`, after an EOF, a `restart` or at the switch to Solo mode. -/
  | reset : w = {} → SlotStep X s e i w
  /-- `spawnWorker` filled an empty slot. -/
  | spawned : (s.workers i).phase = .none → w.phase = .starting → w.proc.isSome = true →
      SlotStep X s e i w
  /-- `sendExit`. -/
  | told : (s.workers i).phase = .idle → w.phase = .exiting → w.proc = (s.workers i).proc →
      SlotStep X s e i w
  /-- The worker was sent a path, and the path could be printed. -/
  | taken {path : AttrPath} : (s.workers i).phase = .idle → w.phase = .busy →
      w.proc = (s.workers i).proc → w.attrPath = some path →
      (X.dump (.ofStrings path)).isSome = true → SlotStep X s e i w
  /-- The worker said `next`. -/
  | started {rss : UInt64} : e = .line i msgNext rss → (s.workers i).phase = .starting →
      w.phase = .idle → w.proc = (s.workers i).proc → SlotStep X s e i w
  /-- The worker answered. -/
  | finished {line : Str} {rss : UInt64} : e = .line i line rss →
      (s.workers i).phase = .busy → w.phase = .starting → w.proc = (s.workers i).proc →
      SlotStep X s e i w
  /-- The sample was over the budget and this was the largest busy worker. -/
  | evicted {own : UInt64} {rss : Fin n → UInt64} : e = .sample own rss →
      ¬(s.sampleWorkers rss).totalRss own ≤ (s.sampleWorkers rss).budget →
      (s.sampleWorkers rss).largestBusy = some i → (s.workers i).phase = .busy →
      w.phase = .killed → w.proc = (s.workers i).proc → w.attrPath = (s.workers i).attrPath →
      SlotStep X s e i w

/-- One slot has changed, the others are as they were. -/
theorem slotStep_update {s : Scheduler n} {e : Event n} {v : Fin n} {w : Worker}
    {workers : Fin n → Worker} (hworkers : workers = Function.update s.workers v w)
    (hw : SlotStep X s e v w) (he : ∀ i line rss, e = .line i line rss → i = v) (i : Fin n) :
    SlotStep X s e i (workers i) := by
  rw [hworkers]
  by_cases hi : i = v
  · subst hi
    rwa [Function.update_self]
  · rw [Function.update_of_ne hi]
    exact .kept rfl rfl rfl fun line rss hline => absurd (he i line rss hline) hi

/-- Whatever the EOF means, the slot is reset. -/
theorem onEof_workers {s s' : Scheduler n} {v : Fin n} {wait : Wait}
    (h : s.onEof X v wait = .ok s') : s'.workers = Function.update s.workers v {} := by
  rcases onEof_cases h with ⟨-, rfl⟩ | ⟨-, -, hkilled⟩
  · rfl
  · rcases onKilled_cases hkilled with ⟨-, rfl⟩ | ⟨_, -, -, rfl⟩ | ⟨_, _, -, -, rfl⟩ <;> rfl

/-- A line changes the slot it was read from. -/
theorem slotStep_onLine {s s' : Scheduler n} {v : Fin n} {line : Str} {rss : UInt64}
    (h : s.onLine X v line rss = .ok s') (i : Fin n) :
    SlotStep X s (.line v line rss) i (s'.workers i) := by
  have honly : ∀ i line' rss', (.line v line rss : Event n) = .line i line' rss' → i = v := by
    intro i line' rss' he
    injection he with hi
    exact hi.symm
  -- `next`, `restart`, a response, or a line of a worker that is going away
  rcases onLine_cases h with ⟨hphase, rfl, rfl⟩ | ⟨-, -, rfl⟩ |
    ⟨hphase, response, json, m, -, haccept, rfl⟩ | ⟨hphase, rfl⟩
  · refine slotStep_update rfl ?_ honly i
    exact .started rfl hphase rfl rfl
  · exact slotStep_update rfl (.reset rfl) honly i
  · refine slotStep_update (v := v) (w := { (s.workers v).sampleRss rss with
      phase := .starting, attrPath := none }) ?_ (.finished rfl hphase rfl rfl) honly i
    rw [← (acceptResponse_frame haccept).1]
    rfl
  · refine .kept rfl rfl rfl fun line' rss' he => ?_
    rwa [honly i line' rss' he]

/-- The turn of a slot in a pass changes this slot. -/
theorem slotStep_turn {s s' : Scheduler n} {k k' : Nat} {v : Fin n} {env : SlotEnv}
    (h : Turn X s k v env k' s') (i : Fin n) : SlotStep X s (.slot env) i (s'.workers i) := by
  have honly : ∀ i line rss, (.slot env : Event n) = .line i line rss → i = v := by simp
  cases h with
  | skip => exact .kept rfl rfl rfl (by simp)
  | exit hidle =>
    refine slotStep_update rfl ?_ honly i
    exact .told hidle rfl rfl
  | sent hidle htake hdump =>
    exact slotStep_update (takeJob_handOut_workers htake) (.taken hidle rfl rfl rfl hdump) honly i
  -- the worker was gone before it could be sent the path: the EOF handler ran at once
  | unsent _ _ htake heof =>
    refine slotStep_update (v := v) (w := {}) ?_ (.reset rfl) honly i
    rw [onEof_workers heof, takeJob_handOut_workers htake, Function.update_idem]
  | spawn hnone =>
    refine slotStep_update rfl ?_ honly i
    exact .spawned hnone rfl rfl

/-- **What an event does to a slot.** -/
theorem step_slotStep {c c' : Config n} {e : Event n} (h : step X c e = some c') (i : Fin n) :
    SlotStep X c.sched e i (c'.sched.workers i) := by
  cases step_steps h with
  | began _ =>
    -- the pass begins with the switch to Solo mode, if it is time for it
    dsimp only [beginDispatch]
    split
    · exact .reset rfl
    · exact .kept rfl rfl rfl (by simp)
  | turned _ hslot => exact slotStep_turn (dispatchSlot_turn hslot) i
  | ended _ => exact .kept rfl rfl rfl (by simp)
  | sampled hs' =>
    rcases sampleMemory_cases hs' with rfl | ⟨v, hover, hv, rfl⟩
    · exact .kept rfl rfl rfl (by simp)
    · have hbusy := largestBusy_busy hv
      -- the victim changes its phase, the others keep theirs
      by_cases hi : i = v
      · subst hi
        refine .evicted rfl hover hv hbusy ?_ ?_ ?_ <;> simp [evict]
        all_goals rfl
      · refine .kept ?_ ?_ ?_ (by simp) <;> simp [evict, Function.update_of_ne hi]
        all_goals rfl
  | read _ hs' => exact slotStep_onLine hs' i
  | @hungUp _ _ idx wait _ hs' =>
    have honly : ∀ i line rss, (.eof idx wait : Event n) = .line i line rss → i = idx := by simp
    exact slotStep_update (onEof_workers hs') (.reset rfl) honly i

end Scheduler

end NixEvalJobs
