import NixEvalJobs.Scheduler.Pool

/-!
# Scheduler — Solo mode

A job that was killed for memory is retried on one fresh worker with nobody
else's heap around. `mode` is written in four places and a pass may change it
half way, so what holds in Solo mode is an invariant over moves:

* at most one worker process exists, and it was spawned after Solo was entered;
* it has been handed as many jobs as it is running, so none before its own;
* when it runs nothing there is a job to retry;
* a pass may spawn one worker only while there is none.

`solo_isolation` states it for every configuration a run can reach.
-/

namespace NixEvalJobs

namespace Effect

variable {n : Nat}

/-- A process was started in the slot. -/
def isSpawnOf (i : Fin n) : Effect n → Bool
  | .spawned j => i = j
  | _ => false

/-- The process of the slot was sent a job. -/
def isHandOutTo (i : Fin n) : Effect n → Bool
  | .handedOut j _ _ _ => i = j
  | _ => false

/-- The switch to Solo mode. -/
def isEnteredSolo : Effect n → Bool
  | .enteredSolo => true
  | _ => false

end Effect

namespace Scheduler

variable {n : Nat} {X : Externals} {ok : AttrPath → Response → Json → Prop}
  {nrWorkers maxMemorySize : UInt64} {resolver : Bool}

/-- What happened since the process of slot `i` was spawned. -/
def sinceSpawn (i : Fin n) (trace : List (Effect n)) : List (Effect n) :=
  trace.takeWhile fun e => !e.isSpawnOf i

/-- How many jobs the process of slot `i` was handed. -/
def handOuts (i : Fin n) (trace : List (Effect n)) : Nat :=
  (sinceSpawn i trace).countP (Effect.isHandOutTo i)

/-- The process of slot `i` was spawned, and Solo was not entered since. -/
def SpawnedInSolo (i : Fin n) (trace : List (Effect n)) : Prop :=
  .spawned i ∈ trace ∧ ∀ e ∈ sinceSpawn i trace, e.isEnteredSolo = false

/-- A process that belongs to the current Solo attempt. -/
structure Fresh (s : Scheduler n) (i : Fin n) : Prop where
  spawned : SpawnedInSolo i s.trace
  handOuts : handOuts i s.trace = (s.workers i).running.toNat

/-- What holds in Solo mode, at any point of a pass. -/
structure Alone (s : Scheduler n) (spawnable : Option Nat) : Prop where
  one : ∀ i j, (s.workers i).proc.isSome = true → (s.workers j).proc.isSome = true → i = j
  fresh : ∀ i, (s.workers i).proc.isSome = true → s.Fresh i
  work : s.running = 0 → s.solo ≠ []
  spawnable : ∀ k ∈ spawnable, k ≤ 1 ∧ (k = 1 → s.anyWorkerAlive = false)

/-! ## The history of a process -/

/-- What is recorded next belongs to the process of the slot, unless it starts a new one. -/
theorem sinceSpawn_cons (i : Fin n) (e : Effect n) (trace : List (Effect n)) :
    sinceSpawn i (e :: trace) = if e.isSpawnOf i then [] else e :: sinceSpawn i trace := by
  rw [sinceSpawn, List.takeWhile_cons]
  cases e.isSpawnOf i <;> rfl

/-- Only entering Solo takes a process out of the current attempt. -/
theorem SpawnedInSolo.cons {i : Fin n} {e : Effect n} {trace : List (Effect n)}
    (h : SpawnedInSolo i trace) (he : e.isEnteredSolo = false) : SpawnedInSolo i (e :: trace) := by
  refine ⟨List.mem_cons_of_mem _ h.1, ?_⟩
  rw [sinceSpawn_cons]
  split
  · intro x hx
    cases hx
  · intro x hx
    rcases List.mem_cons.mp hx with rfl | hx
    · exact he
    · exact h.2 x hx

/-- A process that was just started in Solo mode belongs to it. -/
theorem spawnedInSolo_self (i : Fin n) (trace : List (Effect n)) :
    SpawnedInSolo i (.spawned i :: trace) := by
  refine ⟨List.mem_cons_self .., ?_⟩
  rw [sinceSpawn_cons, if_pos (by simp [Effect.isSpawnOf])]
  intro x hx
  cases hx

/-- Other effects hand nothing to the slot. -/
theorem handOuts_cons_of_not {i : Fin n} {e : Effect n} {trace : List (Effect n)}
    (hspawn : e.isSpawnOf i = false) (hhand : e.isHandOutTo i = false) :
    handOuts i (e :: trace) = handOuts i trace := by
  rw [handOuts, sinceSpawn_cons, if_neg (by simp [hspawn]),
    List.countP_cons_of_neg (by simp [hhand])]
  rfl

/-- One more job. -/
theorem handOuts_cons_self (i : Fin n) (path : AttrPath) (source : Source) (mode : Mode)
    (trace : List (Effect n)) :
    handOuts i (.handedOut i path source mode :: trace) = handOuts i trace + 1 := by
  rw [handOuts, sinceSpawn_cons, if_neg (by simp [Effect.isSpawnOf]),
    List.countP_cons_of_pos (by simp [Effect.isHandOutTo])]
  rfl

/-- A new process has had none. -/
theorem handOuts_spawned (i : Fin n) (trace : List (Effect n)) :
    handOuts i (.spawned i :: trace) = 0 := by
  rw [handOuts, sinceSpawn_cons, if_pos (by simp [Effect.isSpawnOf])]
  rfl

/-! ## Preservation -/

/-- A process stays fresh when it neither starts nor gets a job. -/
theorem Fresh.record {s s' : Scheduler n} {i : Fin n} {e : Effect n} (h : s.Fresh i)
    (hrunning : (s'.workers i).running = (s.workers i).running) (htrace : s'.trace = e :: s.trace)
    (hsolo : e.isEnteredSolo = false) (hspawn : e.isSpawnOf i = false)
    (hhand : e.isHandOutTo i = false) : s'.Fresh i := by
  refine ⟨htrace ▸ h.spawned.cons hsolo, ?_⟩
  rw [htrace, handOuts_cons_of_not hspawn hhand, h.handOuts, hrunning]

/-- A process stays fresh when nothing is recorded. -/
theorem Fresh.of_eq {s s' : Scheduler n} {i : Fin n} (h : s.Fresh i)
    (hrunning : (s'.workers i).running = (s.workers i).running) (htrace : s'.trace = s.trace) :
    s'.Fresh i :=
  ⟨htrace ▸ h.spawned, by rw [htrace, h.handOuts, hrunning]⟩

/-- No process comes back to life. -/
theorem anyWorkerAlive_of_le {s s' : Scheduler n}
    (halive : ∀ i, (s'.workers i).proc.isSome = true → (s.workers i).proc.isSome = true)
    (h : s.anyWorkerAlive = false) : s'.anyWorkerAlive = false := by
  refine anyWorkerAlive_eq_false.mpr fun i => ?_
  by_contra hsome
  have halive := halive i (Option.isSome_iff_ne_none.mpr hsome)
  rw [anyWorkerAlive_eq_false.mp h i] at halive
  cases halive

/-- Processes may go, as long as what runs and what is to be retried stays. -/
theorem Alone.of_le {s s' : Scheduler n} {p : Option Nat} (h : s.Alone p)
    (halive : ∀ i, (s'.workers i).proc.isSome = true → (s.workers i).proc.isSome = true)
    (hrunning : ∀ i, (s'.workers i).running = (s.workers i).running)
    (hsolo : s'.solo = s.solo) (hfresh : ∀ i, s.Fresh i → s'.Fresh i) : s'.Alone p := by
  refine ⟨fun i j hi hj => h.one i j (halive i hi) (halive j hj),
    fun i hi => hfresh i (h.fresh i (halive i hi)), fun hr => ?_, fun k hk => ?_⟩
  · rw [hsolo]
    exact h.work ((countSlots_congr hrunning).symm.trans hr)
  · obtain ⟨hle, hdead⟩ := h.spawnable k hk
    exact ⟨hle, fun hone => anyWorkerAlive_of_le halive (hdead hone)⟩

/-- An assignment that keeps the process of its slot adds none. -/
theorem proc_update {s : Scheduler n} {i : Fin n} {w : Worker}
    (h : w.proc.isSome = (s.workers i).proc.isSome) (j : Fin n)
    (hj : (Function.update s.workers i w j).proc.isSome = true) :
    (s.workers j).proc.isSome = true := by
  exact (apply_update_of_eq (fun w : Worker => w.proc.isSome) h j).symm.trans hj

/-- A slot without a process does not count as one. -/
theorem proc_reset {s : Scheduler n} {i : Fin n} (j : Fin n)
    (hj : ((s.resetWorker i).workers j).proc.isSome = true) :
    (s.workers j).proc.isSome = true := by
  rw [resetWorker, setWorker_workers] at hj
  by_cases hji : j = i
  · subst hji
    rw [Function.update_self] at hj
    cases hj
  · rwa [Function.update_of_ne hji] at hj

/-- Resetting a slot that does not run leaves Solo as it is. -/
theorem Alone.resetWorker {s : Scheduler n} {p : Option Nat} (h : s.Alone p) (i : Fin n)
    (hi : (s.workers i).running = false) : (s.resetWorker i).Alone p :=
  have hrunning : ∀ j, ((s.resetWorker i).workers j).running = (s.workers j).running :=
    apply_update_of_eq Worker.running (f := s.workers) hi.symm
  h.of_le proc_reset hrunning rfl fun j hf => hf.of_eq (hrunning j) rfl

/-- The retry goes to the only process, which has not run anything yet. -/
theorem Alone.takeSolo {s : Scheduler n} {p : Option Nat} {i : Fin n} {path : AttrPath}
    (h : s.Alone p) (hidle : (s.workers i).phase = .idle) :
    ((startJob { s with solo := s.solo.dropLast } i).handOut i path .solo).Alone p := by
  have hworkers := handOut_startJob_workers { s with solo := s.solo.dropLast } i path .solo
  -- the same processes as before
  have halive : ∀ j, (((startJob { s with solo := s.solo.dropLast } i).handOut i path
      .solo).workers j).proc.isSome = true → (s.workers j).proc.isSome = true := by
    rw [hworkers]
    exact proc_update rfl
  refine ⟨fun j j' hj hj' => h.one j j' (halive j hj) (halive j' hj'), fun j hj => ?_,
    fun hr => ?_, fun k hk => ?_⟩
  · obtain ⟨hspawned, hhands⟩ := h.fresh j (halive j hj)
    refine ⟨hspawned.cons rfl, ?_⟩
    by_cases hji : j = i
    · -- an idle process has had no job since it was spawned
      subst hji
      rw [running_of_phase hidle (by simp) (by simp)] at hhands
      rw [hworkers, Function.update_self]
      exact (handOuts_cons_self j path .solo s.mode s.trace).trans (congrArg (· + 1) hhands)
    · rw [hworkers, Function.update_of_ne hji]
      refine (handOuts_cons_of_not rfl ?_).trans hhands
      simpa [Effect.isHandOutTo] using hji
  · -- the slot runs now, so there is nothing to show about `solo`
    have hi := running_eq_zero.mp hr i
    rw [hworkers, Function.update_self] at hi
    cases hi
  · obtain ⟨hle, hdead⟩ := h.spawnable k hk
    exact ⟨hle, fun hone => anyWorkerAlive_of_le halive (hdead hone)⟩

/-- The one process that Solo allows. -/
theorem Alone.spawn {s : Scheduler n} {k : Nat} {i : Fin n} {proc : Proc} {rss : UInt64}
    (h : s.Alone (some (k + 1))) (hnone : (s.workers i).phase = .none) :
    ((s.setWorker i (({ s.workers i with proc := some proc, phase := .starting } :
      Worker).sampleRss rss)).record (.spawned i)).Alone (some k) := by
  obtain ⟨hk, hdead⟩ := h.spawnable (k + 1) rfl
  -- the pass could start one process at most, while there was none
  have hk0 : k = 0 := by omega
  subst hk0
  have hdead := anyWorkerAlive_eq_false.mp (hdead rfl)
  let w : Worker := ({ s.workers i with proc := some proc, phase := .starting } :
    Worker).sampleRss rss
  -- nobody else has a process
  have honly : ∀ j, (Function.update s.workers i w j).proc.isSome = true → j = i := by
    intro j hj
    by_contra hji
    rw [Function.update_of_ne hji, hdead j] at hj
    cases hj
  have hi := running_of_phase hnone (by simp) (by simp)
  have hrunning : ∀ j, (Function.update s.workers i w j).running = (s.workers j).running :=
    apply_update_of_eq Worker.running hi.symm
  refine ⟨fun j j' hj hj' => (honly j hj).trans (honly j' hj').symm, fun j hj => ?_, fun hr => ?_,
    fun j hj => ?_⟩
  · obtain rfl := honly j hj
    refine ⟨spawnedInSolo_self j _, (handOuts_spawned j _).trans ?_⟩
    exact (congrArg Bool.toNat ((hrunning j).trans hi)).symm
  · exact h.work ((countSlots_congr hrunning).symm.trans hr)
  · cases hj
    exact ⟨Nat.zero_le 1, fun hone => absurd hone (by decide)⟩

/-- **One move keeps what holds in Solo mode**, or leaves it. -/
theorem alone_move {a b : Snapshot n} (h : a.sched.mode = .solo → a.sched.Alone a.spawnable)
    (hm : Move X ok a b) (hmode : b.sched.mode = .solo) : b.sched.Alone b.spawnable := by
  -- a move that leaves Solo mode has nothing to show
  cases hm with
  | @enterSolo s _ hsolo _ =>
    -- the pool is empty, and `solo` is why the mode changes
    refine ⟨fun _ _ hi _ => ?_, fun _ hi => ?_, fun _ => hsolo, fun _ hk => ?_⟩
    · cases hi
    · cases hi
    · cases hk
  | @beginPass s _ =>
    -- `spawnable` is computed here: one if nobody is alive
    obtain ⟨hone, hfresh, hwork, -⟩ := h hmode
    refine ⟨hone, hfresh, hwork, fun k hk => ?_⟩
    cases hk
    rw [spawnable, if_pos hmode]
    split
    · exact ⟨Nat.zero_le 1, fun h => absurd h (by decide)⟩
    · next hnone => exact ⟨Nat.le_refl 1, fun _ => by simpa using hnone⟩
  | endPass =>
    obtain ⟨hone, hfresh, hwork, -⟩ := h hmode
    exact ⟨hone, hfresh, hwork, fun _ hk => by cases hk⟩
  | @sendExit s k i hidle _ =>
    have hrunning : ∀ j, (Function.update s.workers i
        { s.workers i with phase := .exiting } j).running = (s.workers j).running :=
      apply_update_of_eq Worker.running (running_of_phase hidle (by simp) (by simp)).symm
    exact (h hmode).of_le (proc_update rfl) hrunning rfl fun j hf =>
      hf.record (hrunning j) rfl rfl rfl rfl
  | takeSolo hidle => exact (h hmode).takeSolo hidle
  | takeTodo _ hparallel =>
    exact absurd (hparallel.symm.trans hmode) (by decide)
  | spawn hnone => exact (h hmode).spawn hnone
  | @started s i hstarting =>
    have hrunning : ∀ j, (Function.update s.workers i
        { s.workers i with phase := .idle } j).running = (s.workers j).running :=
      apply_update_of_eq Worker.running (running_of_phase hstarting (by simp) (by simp)).symm
    exact (h hmode).of_le (proc_update rfl) hrunning rfl fun j hf => hf.of_eq (hrunning j) rfl
  | @restarted s i hstarting =>
    exact (h hmode).resetWorker i (running_of_phase hstarting (by simp) (by simp))
  -- a response ends the attempt
  | finish => cases hmode
  | @exited s p i hexiting =>
    exact (h hmode).resetWorker i (running_of_phase hexiting (by simp) (by simp))
  -- and so does the EOF of a killed worker
  | lost | requeue | giveUp => cases hmode
  | @sample s rss =>
    exact (h hmode).of_le (fun _ hi => hi) (fun _ => rfl) rfl fun _ hf => hf.of_eq rfl rfl
  | @evict s i hbusy =>
    have hrunning : ∀ j, (Function.update s.workers i
        { s.workers i with phase := .killed } j).running = (s.workers j).running :=
      apply_update_of_eq Worker.running (by simp [Worker.running, hbusy])
    exact (h hmode).of_le (proc_update rfl) hrunning rfl fun j hf =>
      hf.record (hrunning j) rfl rfl rfl rfl

/-- So it holds in every state. -/
theorem alone_visited {a : Snapshot n} (h : Visited X ok nrWorkers maxMemorySize resolver a)
    (hmode : a.sched.mode = .solo) : a.sched.Alone a.spawnable := by
  revert hmode
  refine h.invariant (I := fun a => a.sched.mode = .solo → a.sched.Alone a.spawnable)
    (fun hmode => ?_) fun _ ha hm => alone_move ha hm
  cases hmode

/-! ## Where a dispatched path comes from -/

/-- Only Solo mode serves the queue `solo`. -/
theorem soloSource_visited {a : Snapshot n} (h : Visited X ok nrWorkers maxMemorySize resolver a) :
    ∀ i path mode, .handedOut i path .solo mode ∈ a.sched.trace → mode = .solo := by
  refine h.invariant (I := fun a : Snapshot n => ∀ i path mode,
    .handedOut i path .solo mode ∈ a.sched.trace → mode = .solo) (fun i path mode hmem => ?_) ?_
  · cases hmem
  · intro a b _ ha hm i path mode hmem
    rcases trace_move hm with heq | ⟨e, heq, he⟩
    · exact ha i path mode (heq ▸ hmem)
    · rw [heq] at hmem
      rcases List.mem_cons.mp hmem with hhead | htail
      · obtain ⟨hmode, -, hsolo⟩ := he i path .solo mode hhead.symm
        exact hmode.trans (hsolo rfl)
      · exact ha i path mode htail

/-- While nothing runs in Solo mode without a job, `takeJob` never throws. -/
theorem takeJob_ne_error {s : Scheduler n} (hwork : s.mode = .solo → s.running = 0 → s.solo ≠ [])
    (i : Fin n) (own : UInt64) (e : Error) : s.takeJob i own ≠ .error e := by
  intro h
  rw [takeJob] at h
  split at h
  · cases h
  next hidle =>
  split at h
  · next hmode =>
    split at h
    · cases h
    · -- the one way to fail: Solo mode with nothing to retry
      next hlast =>
      have hrunning : s.running = 0 := by
        by_contra hne
        exact hidle ⟨Nat.pos_of_ne_zero hne, .inl hmode⟩
      exact absurd (List.getLast?_eq_none_iff.mp hlast) (hwork hmode hrunning)
  · split at h
    · split at h <;> cases h
    · cases h

/-- **Solo isolation.** In every configuration a run can reach, also in the
middle of a dispatch pass: Solo mode means at most one process; a running one
was spawned after Solo was entered and was handed this one job; when nothing
runs there is a job to retry, so `back()` is never called on an empty vector;
and what was taken from `solo` was dispatched in Solo mode. -/
theorem solo_isolation {c : Config n}
    (h : (system X nrWorkers maxMemorySize resolver).Reachable System.anyEnv c) :
    (c.sched.mode = .solo →
      (∀ i j, (c.sched.workers i).proc.isSome = true → (c.sched.workers j).proc.isSome = true →
        i = j) ∧
      (∀ i, (c.sched.workers i).running = true →
        SpawnedInSolo i c.sched.trace ∧ handOuts i c.sched.trace = 1) ∧
      (c.sched.running = 0 → c.sched.solo ≠ [])) ∧
    (∀ i own, c.sched.takeJob i own ≠ .error (.undefined .backOfEmpty)) ∧
    (∀ i path mode, .handedOut i path .solo mode ∈ c.sched.trace → mode = .solo) := by
  have hvisited := Visited.of_reachable (h.mono fun c e _ => answered_true (X := X) c e)
  have halone : c.sched.mode = .solo → c.sched.Alone (c.pass.map Pass.spawnable) :=
    alone_visited hvisited
  refine ⟨fun hmode => ⟨(halone hmode).one, fun i hi => ?_, (halone hmode).work⟩,
    fun i own => takeJob_ne_error (fun hmode => (halone hmode).work) i own _,
    soloSource_visited hvisited⟩
  have hpool : c.sched.PoolOk := poolOk_visited hvisited
  -- a running worker has a process, which is the fresh one
  have hproc : (c.sched.workers i).proc.isSome = true := (hpool i).isSome_of_running hi
  obtain ⟨hspawned, hhands⟩ := (halone hmode).fresh i hproc
  rw [hi] at hhands
  exact ⟨hspawned, hhands⟩

/-- The only job is killed from outside, and retried alone. -/
def retryRun : List (Event 2) :=
  Event.calmPass 2 ++ [Event.line 0 msgNext 300] ++ Event.calmPass 2 ++ [Event.killedEof 0] ++
    Event.calmPass 2 ++ [Event.line 0 msgNext 300] ++ Event.calmPass 2

/-- The run goes through. -/
theorem retryRun_isSome :
    ((system (Externals.plain []) 2 4096 false).run System.anyCheck
      (system (Externals.plain []) 2 4096 false).init retryRun).isSome = true := by
  decide +kernel

/-- At its end the job runs again, in the one process there is. -/
theorem solo_isolation_retry :
    let c := (system (Externals.plain []) 2 4096 false).after System.anyCheck retryRun
      retryRun_isSome
    c.sched.mode = .solo ∧ (c.sched.workers 0).running = true ∧
      SpawnedInSolo 0 c.sched.trace ∧ handOuts 0 c.sched.trace = 1 := by
  intro c
  have hmode : c.sched.mode = .solo := by decide +kernel
  have hrunning : (c.sched.workers 0).running = true := by decide +kernel
  have h := solo_isolation
    (System.reachable_after (fun _ _ _ => trivial) retryRun retryRun_isSome)
  exact ⟨hmode, hrunning, (h.1 hmode).2.1 0 hrunning⟩

end Scheduler

end NixEvalJobs
