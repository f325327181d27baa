import NixEvalJobs.Scheduler.Solo

/-!
# Scheduler — the processes of the slots

No handler reads through the null `proc` of a slot. Slots are reset in the middle
of passes that have computed earlier which slots to visit, so what a handler needs
is stated for its slot at its turn, and what it leaves alone for the other slots.

* `dispatchSlot_defined`, `onEof_defined`, `sampleMemory_defined`, `defined_onLine` —
  one spec per handler.
* `readReady_others` — reading slots leaves the other ones alone.
* `run_defined` — the loop of `run` uses nothing undefined.
* `phases_consistent` — the slots of every reachable state, and what its passes use.
-/

namespace NixEvalJobs

/-- Reporting how a process ended reads nothing but the wait status. -/
theorem defined_throwExited (doing : Str) (wait : Wait) : Defined (throwExited doing wait) := by
  rw [throwExited]
  split
  · exact defined_error (by simp)
  · split
    · exact defined_ok ()
    · exact defined_error (by simp)
  · split <;> exact defined_error (by simp)

/-- A line that is not a response throws, it does not make anything undefined. -/
theorem defined_parseResponse (X : Externals) (line : Str) : Defined (parseResponse X line) := by
  rw [parseResponse]
  split
  · exact defined_error (by simp)
  next json _ =>
  split
  · exact defined_ok _
  · exact defined_error (by simp)
  · next e _ herror =>
    -- what the decoder raises is passed on
    intro use h
    rw [Except.error.inj h] at herror
    exact Response.defined_fromJson X.toStorePaths json use herror

namespace Scheduler

variable {n : Nat} {X : Externals} {nrWorkers maxMemorySize : UInt64} {resolver : Bool}
  {s s' m : Scheduler n} {idx : Fin n}

/-! ## Handlers -/

/-- In every phase but `None` there is a process. -/
theorem PhasesConsistent.isSome_proc (h : s.PhasesConsistent) {phase : Phase}
    (hphase : (s.workers idx).phase = phase) (hlive : phase ≠ .none) :
    (s.workers idx).proc.isSome = true := by
  rw [Option.isSome_iff_ne_none]
  exact fun hnone => hlive (hphase.symm.trans ((h idx).proc.mp hnone))

/-- Writing an error may throw, when `dump` does. -/
theorem defined_emitError (attrPath : AttrPath) (msg : Str) :
    Defined (s.emitError X attrPath msg) := by
  rw [emitError]
  split
  · exact defined_ok _
  · exact defined_error (by simp)

/-- A retried path goes to `solo`, or to an error that is written. -/
theorem defined_retryJob (attrPath : AttrPath) : Defined (s.retryJob X attrPath) := by
  rw [retryJob]
  split
  · exact (defined_emitError attrPath _).bind fun _ _ => defined_ok _
  · exact defined_ok _

/-- `onKilled` reads the process for its log line and the path of a running slot. -/
theorem onKilled_defined (h : s.PhasesConsistent) (hproc : (s.workers idx).proc.isSome = true) :
    Defined (s.onKilled X idx) := by
  obtain ⟨proc, hproc⟩ := Option.isSome_iff_exists.mp hproc
  rw [onKilled, logKilled, hproc]
  refine Defined.bind ?_ fun _ _ => ?_
  · split <;> exact defined_ok ()
  split
  · next hrunning =>
    obtain ⟨path, hpath⟩ := (h idx).attrPath.mpr (Worker.running_iff.mp hrunning)
    rw [hpath]
    exact (defined_retryJob path).bind fun _ _ => defined_ok _
  · exact defined_ok _

/-- The EOF handler needs the process of its slot, for the wait status. -/
theorem onEof_defined (h : s.PhasesConsistent) (hproc : (s.workers idx).proc.isSome = true)
    (wait : Wait) : Defined (s.onEof X idx wait) := by
  rw [onEof]
  split
  · exact defined_ok _
  · obtain ⟨proc, hsome⟩ := Option.isSome_iff_exists.mp hproc
    rw [hsome]
    exact (defined_throwExited _ wait).bind fun _ _ => onKilled_defined h hproc

/-- An idle worker can be told to exit. -/
theorem sendExit_defined (h : s.PhasesConsistent) (hidle : (s.workers idx).phase = .idle) :
    Defined (s.sendExit idx) := by
  have hproc := h.isSome_proc hidle (by simp)
  obtain ⟨proc, hproc⟩ := Option.isSome_iff_exists.mp hproc
  rw [sendExit, hproc]
  exact defined_ok _

/-- Starting a worker fails by an exception. -/
theorem defined_spawnWorker (env : SlotEnv) : Defined (s.spawnWorker idx env) := by
  rw [spawnWorker]
  split
  · exact defined_error (by simp)
  · exact defined_ok _

/-- A slot that was handed a job has its process, also when the worker is gone and
`onEof` follows. -/
theorem handOut_consistent (h : s.PhasesConsistent) (hidle : (s.workers idx).phase = .idle)
    {own : UInt64} {path : AttrPath} {source : Source}
    (htake : s.takeJob idx own = .ok (some (path, source), m)) :
    (m.handOut idx path source).PhasesConsistent ∧
      ((m.handOut idx path source).workers idx).proc.isSome = true := by
  have hproc := h.isSome_proc hidle (by simp)
  have hslot := takeJob_handOut_workers htake
  -- first the pool, then the process of the slot itself
  constructor
  · intro i
    rw [hslot]
    by_cases hi : i = idx
    · subst hi
      rw [Function.update_self]
      exact (h i).of_phase rfl (by simp) (by simp [hidle]) (by simp)
    · rw [Function.update_of_ne hi]
      exact h i
  · rw [hslot, Function.update_self]
    exact hproc

/-- The turn of a slot in a dispatch pass. -/
theorem dispatchSlot_defined (h : s.PhasesConsistent)
    (hwork : s.mode = .solo → s.running = 0 → s.solo ≠ []) (spawnable : Nat) (env : SlotEnv) :
    Defined (s.dispatchSlot X spawnable idx env) := by
  rw [dispatchSlot]
  dsimp only
  split
  · -- everything is finished and the worker idles
    next hexit => exact (sendExit_defined h hexit.1).bind fun _ _ => defined_ok _
  split
  · next hidle =>
    -- `back()` of an empty vector is the use to exclude here
    refine Defined.bind (fun use => takeJob_ne_error hwork idx env.own _) fun taken htake => ?_
    obtain ⟨job, m⟩ := taken
    cases job with
    | none => exact defined_ok _
    | some job =>
      obtain ⟨path, source⟩ := job
      -- `takeJob` leaves the slot its process, which gets the job
      obtain ⟨hconsistent, hproc⟩ := handOut_consistent h hidle htake
      obtain ⟨proc, hsome⟩ := Option.isSome_iff_exists.mp hproc
      dsimp only
      rw [hsome]
      split
      · exact defined_error (by simp)
      · contradiction
      · split
        · exact defined_ok _
        · exact (onEof_defined hconsistent hproc env.wait).bind fun _ _ => defined_ok _
  split
  · -- an empty slot and workers wanted
    exact (defined_spawnWorker env).bind fun _ _ => defined_ok _
  · exact defined_ok _

/-- The victim of an eviction is busy, so it has a process. -/
theorem sampleMemory_defined (h : s.PhasesConsistent) (own : UInt64) (rss : Fin n → UInt64) :
    Defined (s.sampleMemory own rss) := by
  rw [sampleMemory]
  split
  · exact defined_ok _
  split
  · exact defined_ok _
  · next victim hvictim =>
    -- the victim is looked for after the readings were written
    have hsampled : (s.sampleWorkers rss).PhasesConsistent := fun i => ⟨(h i).proc, (h i).attrPath⟩
    have hproc := hsampled.isSome_proc (largestBusy_busy hvictim) (by simp)
    obtain ⟨proc, hproc⟩ := Option.isSome_iff_exists.mp hproc
    rw [hproc]
    exact defined_ok _

/-- A fatal error throws after it was written. -/
theorem defined_acceptResponse (response : Response) (json : Json) (line : Str) :
    Defined (s.acceptResponse response json line) := by
  rw [acceptResponse]
  split
  · exact defined_error (by simp)
  · exact defined_ok _

/-- What is said of an unexpected first line is an exception of its own. -/
theorem unexpectedStartLine_ne (line : Str) (use : Undefined) :
    unexpectedStartLine X line ≠ .undefined use := by
  rw [unexpectedStartLine]
  split
  · split
    · simp
    · split <;> simp
    · simp
  · simp

/-- A line is handled without looking at the process. -/
theorem defined_onLine (line : Str) (rss : UInt64) : Defined (s.onLine X idx line rss) := by
  rw [onLine]
  split
  · split
    · exact defined_ok _
    split
    · exact defined_ok _
    · exact defined_error (unexpectedStartLine_ne line)
  · rw [onResponse]
    refine (defined_parseResponse X line).bind fun decoded _ => ?_
    exact (defined_acceptResponse decoded.1 decoded.2 line).bind fun _ _ => defined_ok _
  · exact defined_ok _
  · exact defined_ok _
  · exact defined_error (by simp)
  · exact defined_error (by simp)

/-! ## What the other slots keep -/

/-- A line is handled in its own slot. -/
theorem onLine_others {line : Str} {rss : UInt64} (h : s.onLine X idx line rss = .ok s')
    {i : Fin n} (hi : i ≠ idx) : s'.workers i = s.workers i := by
  rcases onLine_cases h with ⟨-, -, rfl⟩ | ⟨-, -, rfl⟩ | ⟨-, response, json, m, -, haccept, rfl⟩ |
    ⟨-, rfl⟩
  · exact Function.update_of_ne hi _ _
  · exact Function.update_of_ne hi _ _
  · rw [← (acceptResponse_frame haccept).1]
    exact Function.update_of_ne hi _ _
  · rfl

/-- The same for all lines of one read, -/
theorem readLines_others {lines : List (Str × UInt64)} (h : readLines X idx lines s = .ok s')
    {i : Fin n} (hi : i ≠ idx) : s'.workers i = s.workers i := by
  induction lines generalizing s with
  | nil => rw [Except.ok.inj h]
  | cons line lines ih =>
    rw [readLines] at h
    split at h
    · obtain ⟨m, hm, hrest⟩ := bind_eq_ok.mp h
      exact (ih hrest).trans (onLine_others hm hi)
    · rw [Except.ok.inj h]

/-- for a read that ends with an EOF, -/
theorem readWorker_others {env : ReadEnv} (h : s.readWorker X idx env = .ok s')
    {i : Fin n} (hi : i ≠ idx) : s'.workers i = s.workers i := by
  rw [readWorker] at h
  split at h
  · cases h
  obtain ⟨m, hm, h⟩ := bind_eq_ok.mp h
  split at h
  · rw [onEof_workers h, Function.update_of_ne hi, readLines_others hm hi]
  · rw [← Except.ok.inj h, readLines_others hm hi]

/-- and for a list of slots, about those that are not in it. -/
theorem readReady_others {ready : Fin n → Option ReadEnv} {polled : List (Fin n)}
    (h : readReady X ready polled s = .ok s') {i : Fin n} (hi : i ∉ polled) :
    s'.workers i = s.workers i := by
  induction polled generalizing s with
  | nil => rw [Except.ok.inj h]
  | cons idx polled ih =>
    obtain ⟨hne, hrest⟩ := List.ne_and_not_mem_of_not_mem_cons hi
    rw [readReady] at h
    split at h
    · obtain ⟨m, hm, h⟩ := bind_eq_ok.mp h
      exact (ih h hrest).trans (readWorker_others hm hne)
    · exact ih h hrest

/-- Sampling kills a worker but leaves its slot a process. -/
theorem sampleMemory_proc {own : UInt64} {rss : Fin n → UInt64}
    (h : s.sampleMemory own rss = .ok s') (i : Fin n) :
    (s'.workers i).proc = (s.workers i).proc := by
  rcases sampleMemory_cases h with rfl | ⟨v, -, -, rfl⟩
  · rfl
  · by_cases hi : i = v
    · subst hi
      simp [evict, sampleWorkers]
    · simp [evict, Function.update_of_ne hi, sampleWorkers]

/-! ## Passes -/

/-- The invariant of the pool, for the states the loop passes through. -/
theorem Visits.consistent {c : Config n} (h : Visits X nrWorkers maxMemorySize resolver c) :
    c.sched.PhasesConsistent :=
  phasesConsistent_visited (.of_reachable (h.mono fun c e _ => answered_true (X := X) c e))

/-- While nothing runs in Solo mode, there is a job to retry. -/
theorem Visits.work {c : Config n} (h : Visits X nrWorkers maxMemorySize resolver c)
    (hmode : c.sched.mode = .solo) : c.sched.running = 0 → c.sched.solo ≠ [] :=
  (alone_visited (.of_reachable (h.mono fun c e _ => answered_true (X := X) c e)) hmode).work

/-- The rest of a pass: each slot finds its process, in the state the slots before it left. -/
theorem dispatchSlots_defined {env : Fin n → SlotEnv} {slots : List (Fin n)} {k spawnable : Nat}
    (hslots : slots = (List.finRange n).drop k)
    (hs : Visits X nrWorkers maxMemorySize resolver ⟨s, some ⟨k, spawnable⟩⟩) :
    Defined (dispatchSlots X env slots spawnable s) := by
  induction slots generalizing k spawnable s with
  | nil => exact defined_ok s
  | cons idx slots ih =>
    obtain ⟨hlt, rfl, hrest⟩ := drop_finRange hslots
    refine (dispatchSlot_defined hs.consistent hs.work spawnable _).bind fun moved hslot => ?_
    exact ih hrest (hs.slot hlt hslot)

/-- A whole pass. -/
theorem dispatch_defined (hs : Visits X nrWorkers maxMemorySize resolver ⟨s, none⟩)
    (hloops : s.loops = true) (env : Fin n → SlotEnv) : Defined (s.dispatch X env) :=
  dispatchSlots_defined rfl (hs.step (e := .beginDispatch) trivial (if_pos hloops))

/-- The lines are read while there is a process. -/
theorem readLines_defined (lines : List (Str × UInt64)) : Defined (readLines X idx lines s) := by
  induction lines generalizing s with
  | nil => exact defined_ok s
  | cons line lines ih =>
    rw [readLines]
    split
    · exact (defined_onLine line.1 line.2).bind fun m _ => ih
    · exact defined_ok s

theorem readWorker_defined (hs : Visits X nrWorkers maxMemorySize resolver ⟨s, none⟩)
    (hproc : (s.workers idx).proc.isSome = true) (env : ReadEnv) :
    Defined (s.readWorker X idx env) := by
  obtain ⟨proc, hproc⟩ := Option.isSome_iff_exists.mp hproc
  rw [readWorker, hproc]
  -- the EOF is handled after the lines, if the slot still has its process
  refine (readLines_defined env.lines).bind fun m hm => ?_
  split
  · next heof => exact onEof_defined (hs.readLines hm).consistent heof.2 env.wait
  · exact defined_ok m

/-- A list of slots, each visited once, that have a process before the first is read. -/
theorem readReady_defined {ready : Fin n → Option ReadEnv} {polled : List (Fin n)}
    (hs : Visits X nrWorkers maxMemorySize resolver ⟨s, none⟩) (hnodup : polled.Nodup)
    (hproc : ∀ i ∈ polled, (s.workers i).proc.isSome = true) :
    Defined (readReady X ready polled s) := by
  induction polled generalizing s with
  | nil => exact defined_ok s
  | cons idx polled ih =>
    obtain ⟨hfresh, hnodup⟩ := List.nodup_cons.mp hnodup
    obtain ⟨hidx, hrest⟩ := List.forall_mem_cons.mp hproc
    rw [readReady]
    split
    · next read _ =>
      refine (readWorker_defined hs hidx read).bind fun m hm => ?_
      refine ih (hs.readWorker hm) hnodup fun i hi => ?_
      -- reading one slot leaves the processes of the others alone
      have hne : i ≠ idx := ne_of_mem_of_not_mem hi hfresh
      rw [readWorker_others hm hne]
      exact hrest i hi
    · exact ih hs hnodup hrest

/-- The slots that `pollWorkers` polls. -/
def owner (s : Scheduler n) : List (Fin n) :=
  (List.finRange n).filter fun idx => (s.workers idx).proc.isSome

/-- No slot is polled twice. -/
theorem nodup_owner (s : Scheduler n) : s.owner.Nodup := (List.nodup_finRange n).filter _

/-- The polled slots are those with a process. -/
theorem mem_owner {i : Fin n} : i ∈ s.owner ↔ (s.workers i).proc.isSome = true := by
  rw [owner, List.mem_filter]
  exact and_iff_right (List.mem_finRange i)

/-- `owner` is computed before sampling, which leaves every slot its process. -/
theorem pollWorkers_defined (hs : Visits X nrWorkers maxMemorySize resolver ⟨s, none⟩)
    (env : PollEnv n) : Defined (s.pollWorkers X env) := by
  rw [pollWorkers]
  split
  · next own rss _ =>
    refine (sampleMemory_defined hs.consistent own rss).bind fun m hm => ?_
    refine readReady_defined (hs.sampleMemory hm) s.nodup_owner fun i hi => ?_
    rw [sampleMemory_proc hm]
    exact mem_owner.mp hi
  · exact readReady_defined hs s.nodup_owner fun i hi => mem_owner.mp hi

/-- **The loop of `run` uses nothing undefined.** -/
theorem run_defined (hs : Visits X nrWorkers maxMemorySize resolver ⟨s, none⟩)
    (envs : List (RoundEnv n)) : Defined (s.run X envs) := by
  -- on the rounds
  induction envs generalizing s with
  | nil => exact defined_ok _
  | cons env envs ih =>
    rw [run]
    split
    · next hloops =>
      refine (dispatch_defined hs hloops env.slots).bind fun m hm => ?_
      have hvisits := hs.dispatch hloops hm
      refine (pollWorkers_defined hvisits env.poll).bind fun m' hm' => ?_
      exact ih (hvisits.pollWorkers hm')
    · exact defined_ok _

/-- A pass over `owner` has come to `idx`: memory was sampled if it was time for that, and
the slots before `idx` have been read. -/
def AtTurn (X : Externals) (s : Scheduler n) (ready : Fin n → Option ReadEnv) (idx : Fin n)
    (m : Scheduler n) : Prop :=
  ∃ before after sampled, s.owner = before ++ idx :: after ∧
    (sampled = s ∨ ∃ own rss, s.sampleMemory own rss = .ok sampled) ∧
    readReady X ready before sampled = .ok m

/-- A slot of `owner` still has a process at its turn. -/
theorem AtTurn.isSome_proc {ready : Fin n → Option ReadEnv} (h : s.AtTurn X ready idx m) :
    (m.workers idx).proc.isSome = true := by
  obtain ⟨before, after, sampled, howner, hsampled, hread⟩ := h
  have hproc : (s.workers idx).proc.isSome = true := by
    rw [← mem_owner, howner]
    exact List.mem_append_right before (List.mem_cons_self ..)
  -- the slots before it are other ones
  have hnodup := howner ▸ s.nodup_owner
  have hfresh : idx ∉ before := fun hbefore =>
    (List.nodup_append.mp hnodup).2.2 idx hbefore idx (List.mem_cons_self ..) rfl
  rw [readReady_others hread hfresh]
  rcases hsampled with rfl | ⟨own, rss, hsampled⟩
  · exact hproc
  · rwa [sampleMemory_proc hsampled]

/-- **Slots are consistent and no null process is used.** In every state that events lead
to, also in the middle of a dispatch pass: a slot has no process exactly when its phase is
`None` and a path exactly when it is busy or killed; the slot whose turn it is can be
dispatched to; and between passes every handler, every pass and the rest of the loop of
`run` find what they use, each polled slot still having its process at its turn. -/
theorem phases_consistent {c : Config n}
    (h : (system X nrWorkers maxMemorySize resolver).Reachable System.anyEnv c) :
    (∀ i, ((c.sched.workers i).proc = none ↔ (c.sched.workers i).phase = .none) ∧
      ((∃ path, (c.sched.workers i).attrPath = some path) ↔
        (c.sched.workers i).phase = .busy ∨ (c.sched.workers i).phase = .killed)) ∧
    (∀ pass, c.pass = some pass → ∀ (hlt : pass.idx < n) (env : SlotEnv),
      Defined (c.sched.dispatchSlot X pass.spawnable ⟨pass.idx, hlt⟩ env)) ∧
    (c.pass = none →
      (∀ own rss, Defined (c.sched.sampleMemory own rss)) ∧
      (∀ i, (c.sched.workers i).proc.isSome = true →
        (∀ line rss, Defined (c.sched.onLine X i line rss)) ∧
        (∀ wait, Defined (c.sched.onEof X i wait)) ∧
        ∀ env, Defined (c.sched.readWorker X i env)) ∧
      (c.sched.loops = true → ∀ env, Defined (c.sched.dispatch X env)) ∧
      (∀ env, Defined (c.sched.pollWorkers X env)) ∧
      (∀ ready i m, c.sched.AtTurn X ready i m → (m.workers i).proc.isSome = true) ∧
      ∀ envs, Defined (c.sched.run X envs)) := by
  obtain ⟨s, pass⟩ := c
  have hconsistent : s.PhasesConsistent := Visits.consistent h
  refine ⟨fun i => ⟨(hconsistent i).proc, (hconsistent i).attrPath⟩, ?_, ?_⟩
  · intro pass hpass hlt env
    exact dispatchSlot_defined hconsistent (Visits.work h) pass.spawnable env
  · intro hpass
    obtain rfl : pass = none := hpass
    refine ⟨sampleMemory_defined hconsistent, fun i hi => ⟨defined_onLine, ?_, ?_⟩,
      dispatch_defined h, pollWorkers_defined h, ?_, run_defined h⟩
    · exact onEof_defined hconsistent hi
    · exact readWorker_defined h hi
    · exact fun ready i m hturn => hturn.isSome_proc

/-- The run to the second pass exists. -/
theorem pollRun_isSome :
    ((system (Externals.plain [rootJson]) 2 4096 false).run System.anyCheck
      (system (Externals.plain [rootJson]) 2 4096 false).init Event.rootRun).isSome = true := by
  decide +kernel

/-- One worker is busy and the other one starting; whatever the first one sends, the second
one has its process when it is read. -/
theorem phases_consistent_rootRun :
    let c := (system (Externals.plain [rootJson]) 2 4096 false).after System.anyCheck
      Event.rootRun pollRun_isSome
    (∃ path, (c.sched.workers 0).attrPath = some path) ∧
      (¬∃ path, (c.sched.workers 1).attrPath = some path) ∧
      ∀ ready m, readReady (Externals.plain [rootJson]) ready [0] c.sched = .ok m →
        (m.workers 1).proc.isSome = true := by
  intro c
  have h := phases_consistent (System.reachable_after (fun _ _ _ => trivial)
    Event.rootRun pollRun_isSome)
  refine ⟨((h.1 0).2).mpr (by decide +kernel), fun hpath => ?_, fun ready m hread => ?_⟩
  · have hstarting : (c.sched.workers 1).phase = .starting := by decide +kernel
    have hphase := ((h.1 1).2).mp hpath
    simp [c, hstarting] at hphase
  · -- the second part applies `AtTurn` with the first slot already read
    have hpass : c.pass.isNone = true := by decide +kernel
    have howner : c.sched.owner = [0, 1] := by decide +kernel
    obtain ⟨-, -, -, -, hturn, -⟩ := h.2.2 (Option.isNone_iff_eq_none.mp hpass)
    exact hturn ready 1 m ⟨[0], [], c.sched, howner, .inl rfl, hread⟩

end Scheduler

end NixEvalJobs
